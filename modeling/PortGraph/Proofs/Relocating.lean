import PortGraph.Proofs.Replicating

/-!
# Moving compared with copying

All vertices of a consistent graph can be moved to another graph, or copied there and then cleared
away. The two ways share no code that handles connections: copies start out unconnected and are
connected again one link at a time, while vertices that move keep their lists and have every entry
renamed. `Relocated` says how far they agree. The names, the counter and the vertices are the same,
except that the outputs of a copy list their opposites in the order of the inputs, whereas a vertex
that moved lists them in the order that it had.
-/

namespace PortGraph

/-! ## Renamings of the same vertices -/

/-- A map is known by its keys and its values. -/
theorem IdMap.ext_keys_values {α : Type} {m n : IdMap α} (hkeys : m.keys = n.keys)
    (hvalues : m.values = n.values) : m = n := by
  apply ext_entries
  have hzip (es : List (NodeId × α)) : (es.map Prod.fst).zip (es.map Prod.snd) = es := by
    rw [List.zip_map, List.zip_eq_zipWith, List.zipWith_self, List.map_map]
    exact List.map_id es
  rw [← hzip m.entries, ← hzip n.entries]
  exact congrArg₂ List.zip hkeys hvalues

/-- The same vertices, numbered from the same identifier on, have the same names. -/
theorem Renaming.Numbering.unique {names names' : Renaming} {ids : List NodeId} {first : NodeId}
    (h : names.Numbering ids first) (h' : names'.Numbering ids first) : names = names' := by
  have hval : Function.Injective NodeId.val := fun _ _ heq => NodeId.ext heq
  have hvalues : names.values.map NodeId.val = names'.values.map NodeId.val :=
    h.values_eq.trans h'.values_eq.symm
  exact IdMap.ext_keys_values (h.keys_eq.trans h'.keys_eq.symm)
    (List.map_injective_iff.mpr hval hvalues)

/-! ## The same vertex up to order -/

variable {φ : Flavour} {ω : Type}

/-- `w` is the vertex `v`, except that its outputs may list their opposites in another order. -/
structure Node.Reordered (v w : Node φ ω) : Prop where
  weight_eq : w.weight = v.weight
  binding_eq : w.binding = v.binding
  inputs_eq : w.inputs = v.inputs
  offsets_eq : w.outputs.map Port.offset = v.outputs.map Port.offset
  outputs (i : Nat) : (Vertex.peers .outgoing i w).Perm (Vertex.peers .outgoing i v)

theorem Node.Reordered.refl (v : Node φ ω) : Reordered v v where
  weight_eq := rfl
  binding_eq := rfl
  inputs_eq := rfl
  offsets_eq := rfl
  outputs _ := .refl _

namespace Graph

/-- `t` is what comes of moving all vertices of `source`, under the names `names`, where copying
them would have come to the graph `copied`. -/
structure Relocated (source copied : Graph (Node φ ω)) (t : Transfer (Node φ ω))
    (names : Renaming) : Prop where
  answer_eq : t.answer = .ok names
  keys_eq : names.keys = source.ids
  /-- The source keeps its identity and its counter, and no vertex. -/
  source_eq : t.source = { source with vertices := .empty }
  id_eq : t.dest.id = copied.id
  next_eq : t.dest.next = copied.next
  /-- The same identifiers have vertices, and these are the same up to the order of outputs. -/
  vertices (a : NodeId) : Option.Rel Node.Reordered (copied.find? a) (t.dest.find? a)
  /-- A port that moved lists what it listed before, renamed and in the same order. -/
  opposites {s u : Slot} (hs : names.slot? s = some u) (d : Direction) :
    (t.dest.peers d u).map some = (source.peers d s).map names.slot?

variable {source dest copied h : Graph (Node φ ω)} {names : Renaming}

/-- A port of a consistent graph that moves with all others lists the new names of what it listed.
-/
theorem Enrolled.map_some_peers_relink (hsource : source.Consistent)
    (hen : Enrolled dest (source.movers source.ids) h names) {s u : Slot}
    (hs : names.slot? s = some u) (d : Direction) :
    ((h.relink names).peers d u).map some = (source.peers d s).map names.slot? := by
  rw [hen.peers_relink_of_retains hs (source.retains_of_steady names dest.id d s)]
  apply Renaming.map_some_filterMap
  intro t ht
  have hstored := contains_iff.mpr (hsource.hasPort ht).exists_find?
  exact (hen.exists_name_iff t.node).mpr ⟨IdMap.mem_keys_iff.mpr hstored, hstored⟩

/-- The vertex that moved and the copy of it are the same up to the order of outputs. -/
theorem Replica.reordered (hsource : source.Consistent)
    (hcopied : Replica source dest copied names)
    (hen : Enrolled dest (source.movers source.ids) h names) {k a : NodeId}
    (hk : names.get? k = some a) :
    Option.Rel Node.Reordered (copied.find? a) ((h.relink names).find? a) := by
  obtain ⟨v, hv⟩ := hen.exists_find?_of_get? hk
  obtain ⟨w, hw, hcopies, hmembership⟩ := hcopied.copy hk hv
  have hmoved := hen.find?_relink hk hv
  let joined : Node φ ω := { v with binding := ⟨some ⟨dest.id, a⟩⟩ }
  have hrename (p : Port φ) : (p.rename names.get?).offset = p.offset := rfl
  have hr : Vertex.Rewired joined (Vertex.renameLinks names.get? joined) :=
    Vertex.rewired_mapPorts hrename joined
  have hoffsets (d : Direction) :
      (Vertex.ports d (Vertex.renameLinks names.get? joined)).map Port.offset =
        (Vertex.ports d w).map Port.offset := by
    rw [hr.offsets, hcopies.offsets]
    cases d <;> rfl
  have hslot (i : Nat) : names.slot? ⟨k, i⟩ = some ⟨a, i⟩ :=
    Renaming.slot?_eq_some_iff.mpr ⟨hk, rfl⟩
  have hlists (d : Direction) (i : Nat) :
      (Vertex.peers d i (Vertex.renameLinks names.get? joined)).map some =
        (source.peers d ⟨k, i⟩).map names.slot? := by
    rw [← hen.map_some_peers_relink hsource (hslot i) d, peers_eq_of_find? hmoved]
    rfl
  have hsome : Function.Injective (some : Slot → Option Slot) := fun _ _ => Option.some.inj
  rw [hw, hmoved]
  refine .some ⟨?_, ?_, ?_, hoffsets .outgoing, ?_⟩
  · rw [hcopies.weight_eq]
    rfl
  · have hbinding : w.binding = ⟨some ⟨dest.id, a⟩⟩ := by
      rw [← hcopied.id_eq, ← hmembership]
    rw [hbinding]
    rfl
  · refine Vertex.ports_ext (d := .incoming) (hoffsets .incoming) fun i => ?_
    have hinputs := hcopied.inputs (hslot i)
    rw [peers_eq_of_find? hw] at hinputs
    exact List.map_injective_iff.mpr hsome ((hlists .incoming i).trans hinputs.symm)
  · intro i
    have houtputs := hcopied.outputs (hslot i)
    rw [peers_eq_of_find? hw, ← hlists .outgoing i] at houtputs
    exact (List.map_perm_map_iff hsome).mp houtputs.symm

/-- What is moved and what is copied go under the same identifiers, and all else is left alone. -/
theorem Replica.vertices_relink (hsource : source.Consistent)
    (hcopied : Replica source dest copied names)
    (hen : Enrolled dest (source.movers source.ids) h names) (a : NodeId) :
    Option.Rel Node.Reordered (copied.find? a) ((h.relink names).find? a) := by
  by_cases hnamed : ∃ k, names.get? k = some a
  · obtain ⟨k, hk⟩ := hnamed
    exact hcopied.reordered hsource hen hk
  · have hnot : ∀ k, names.get? k ≠ some a := fun k hk => hnamed ⟨k, hk⟩
    rw [hen.find?_relink_of_not_named hnot]
    cases hv : dest.find? a with
    | some v =>
      rw [hcopied.kept hv]
      exact .some (.refl v)
    | none =>
      have hnone : copied.find? a = none := by
        apply not_contains_iff.mp
        rw [hcopied.contains_iff, not_or]
        exact ⟨not_contains_iff.mpr hv, hnamed⟩
      rw [hnone]
      exact .none

theorem map_fst_movers_ids (source : Graph (Node φ ω)) :
    (source.movers source.ids).map Prod.fst = source.ids :=
  map_fst_movers fun _ hk => IdMap.mem_keys_iff.mp hk

theorem Replica.next_relink (hcopied : Replica source dest copied names)
    (hen : Enrolled dest (source.movers source.ids) h names) :
    (h.relink names).next = copied.next := by
  have hlength : (source.movers source.ids).length = source.size := by
    rw [← List.length_map Prod.fst, map_fst_movers_ids, ids, IdMap.keys, List.length_map]
    rfl
  apply NodeId.ext
  rw [hcopied.next_eq, ← hlength, ← hen.next_eq]
  exact congrArg NodeId.val (h.rewired_relink names).next_eq

/-- Moving the vertices of a consistent graph gives them the names that their copies would have, and
leaves the other graph with the same vertices as copying would, up to the order in which outputs
list their opposites. -/
theorem moveInto_relocated (hsource : source.Consistent) (hdest : dest.Sound) :
    ∃ names, (source.copyInto dest).val.2 = .ok names ∧
      Relocated source (source.copyInto dest).val.1 (source.moveInto dest).val names := by
  obtain ⟨copies, names, hcopies, hok, hrewired, hpeers⟩ := copyInto_eq hsource hdest.bounded
  have hcopied := replica_of_enrolled hsource hdest.bounded hcopies hrewired
    (hdest.consistent.copyInto source) hpeers
  obtain ⟨h, names', hval, hen⟩ := source.moveInto_eq hdest.bounded
  have hnumbering := hen.numbering
  rw [map_fst_movers_ids] at hnumbering
  obtain rfl : names = names' := hcopied.numbering.unique hnumbering
  have hid : (h.relink names).id = (source.copyInto dest).val.1.id :=
    ((h.rewired_relink names).id_eq.trans hen.id_eq).trans hcopied.id_eq.symm
  refine ⟨names, hok, ?_⟩
  rw [hval]
  exact ⟨rfl, hnumbering.keys_eq, rfl, hid, hcopied.next_relink hen,
    hcopied.vertices_relink hsource hen, fun hs d => hen.map_some_peers_relink hsource hs d⟩

/-- A braid is moved to where there is one already. The output that moved lists the inputs in the
order in which they were connected, the output of the copy in ascending order. -/
theorem moveInto_relocated_braid :
    (braid .first).Consistent ∧ (braid ⟨2⟩).Sound ∧ ∃ names,
      ((braid .first).copyInto (braid ⟨2⟩)).val.2 = .ok names ∧
        Relocated (braid .first) ((braid .first).copyInto (braid ⟨2⟩)).val.1
          ((braid .first).moveInto (braid ⟨2⟩)).val names ∧
        ((braid .first).moveInto (braid ⟨2⟩)).val.dest.peers .outgoing ⟨⟨3, by decide⟩, 0⟩ =
          [⟨⟨4, by decide⟩, 1⟩, ⟨⟨4, by decide⟩, 0⟩, ⟨⟨4, by decide⟩, 1⟩] := by
  obtain ⟨names, hok, hrelocated⟩ :=
    moveInto_relocated (sound_braid .first).consistent (sound_braid ⟨2⟩)
  exact ⟨(sound_braid .first).consistent, sound_braid ⟨2⟩, names, hok, hrelocated, by decide⟩

end Graph

end PortGraph
