import PortGraph.Proofs.Runs
import PortGraph.Proofs.Weighted

/-!
# Replicas in another graph

Copying a consistent graph of weighted vertices into another one never fails. `Replica` says what
the other graph holds afterwards: a copy of each vertex, under consecutive new identifiers, with the
connections of the source among the copies and with none besides; and what it held before, which is
not touched. As in a clone, the inputs of the copies list their opposites in the order of the source
and the outputs list theirs in the order of the inputs.
-/

namespace PortGraph.Graph

variable {φ : Flavour}

/-- `h` is `dest` with a copy of `source` besides, in which the vertices have the new names `names`.
-/
structure Replica {ω : Type} (source dest h : Graph (Node φ ω)) (names : Renaming) : Prop where
  id_eq : h.id = dest.id
  next_eq : h.next.val = dest.next.val + source.size
  /-- All vertices have new names, which follow the counter in the order of the old ones. -/
  numbering : names.Numbering source.ids dest.next
  /-- Every vertex that there was is as it was. -/
  kept {a : NodeId} {v : Node φ ω} (hv : dest.find? a = some v) : h.find? a = some v
  /-- No others are stored than these and the copies. -/
  contains_iff (a : NodeId) :
    h.contains a = true ↔ dest.contains a = true ∨ ∃ k, names.get? k = some a
  /-- A copy has the weight and the offsets of its original, and belongs to the graph. -/
  copy {k a : NodeId} {v : Node φ ω} (hk : names.get? k = some a) (hv : source.find? k = some v) :
    ∃ w, h.find? a = some w ∧ Node.Copies v w ∧ w.binding.membership = some ⟨h.id, a⟩
  consistent : h.Consistent
  /-- Copies are connected as often as their originals are. -/
  multiplicity_eq {l l' : Link} (hl : renamedLink? names l = some l') :
    h.multiplicity l' = source.multiplicity l
  /-- An input lists the new names of what its original lists, in the same order. -/
  inputs {s t : Slot} (hs : names.slot? s = some t) :
    (h.peers .incoming t).map some = (source.peers .incoming s).map names.slot?
  /-- An output lists them in some order. -/
  outputs {s t : Slot} (hs : names.slot? s = some t) :
    ((h.peers .outgoing t).map some).Perm ((source.peers .outgoing s).map names.slot?)
  /-- Copies are connected to copies only, not to a vertex that there was. -/
  separate {k : NodeId} {d : Direction} {t u : Slot} (hk : names.get? k = some t.node)
    (hu : u ∈ h.peers d t) : (∃ j, names.get? j = some u.node) ∧ dest.find? u.node = none

section Copies

variable {ν : Type} [Vertex φ ν] {source dest h : Graph ν} {names : Renaming}

/-- Where all opposites of a port have names, renaming them drops none. -/
theorem Enrolled.map_some_peers (hen : Enrolled dest (copies source.vertices.entries) h names)
    (hsource : source.Consistent) (d : Direction) (s : Slot) :
    ((source.peers d s).filterMap names.slot?).map some = (source.peers d s).map names.slot? := by
  apply Renaming.map_some_filterMap
  intro t ht
  obtain ⟨v, hv⟩ := (hsource.hasPort ht).exists_find?
  exact (hen.exists_copy_iff t.node).mpr (contains_iff.mpr ⟨v, hv⟩)

end Copies

variable {ω : Type} {source dest h c : Graph (Node φ ω)} {names : Renaming}

/-- What comes of connecting the copies is a replica. -/
theorem replica_of_enrolled (hsource : source.Consistent) (hdest : dest.Bounded)
    (hen : Enrolled dest (copies source.vertices.entries) h names) (hr : Rewired h c)
    (hc : c.Consistent)
    (hpeers : ∀ d t, c.peers d t = dest.peers d t ++
      Link.farEnds d t (source.inboundLinks.filterMap (renamedLink? names))) :
    Replica source dest c names := by
  have hlists {s t : Slot} (hs : names.slot? s = some t) (d : Direction) :
      c.peers d t = (Link.farEnds d s source.inboundLinks).filterMap names.slot? := by
    rw [hpeers, hen.farEnds_renamed hdest hs]
  have hkeys : (copies source.vertices.entries).map Prod.fst = source.ids := List.map_map
  refine ⟨hr.id_eq.trans hen.id_eq, ?_, hkeys ▸ hen.numbering, ?_, ?_, ?_, hc, ?_, ?_, ?_, ?_⟩
  · rw [hr.next_eq, hen.next_eq, copies, List.length_map]
    rfl
  · intro a v hv
    have hnot := hen.not_named_of_find? hdest hv
    have hsame : c.find? a = h.find? a := by
      refine find?_eq_of_rewired hr (.refl h) fun d i => ?_
      rw [hpeers, Renaming.farEnds_filterMap_eq_nil hnot, List.append_nil]
      exact peers_congr (port?_congr (hen.kept hnot).symm)
    rw [hsame, hen.kept hnot, hv]
  · intro a
    rw [hr.contains_eq, hen.stored_iff]
  · intro k a v hk hv
    obtain ⟨w, hw, hrewired⟩ := hr.exists_find? (hen.find?_copy hk hv)
    refine ⟨w, hw, (Node.copies_joinedCopy dest.id a v).rewired hrewired, ?_⟩
    rw [hr.id_eq, hen.id_eq, Node.binding_eq_of_rewired hrewired]
    rfl
  · intro l l' hl
    have hs := Renaming.slot?_side hl .outgoing
    have ht := Renaming.slot?_side hl .incoming
    calc c.multiplicity l'
        = (c.peers .outgoing (l'.side .outgoing)).count (l'.side .incoming) := rfl
      _ = (Link.farEnds .outgoing (l.side .outgoing) source.inboundLinks).count
            (l.side .incoming) := by
          rw [hlists hs, hen.injective.count_filterMap ht]
      _ = source.inboundLinks.count l := by
          rw [Link.count_farEnds]
          exact congrArg (List.count · _) (l.between_side .outgoing)
      _ = source.multiplicity l := count_inboundLinks hsource l
  · intro s t hs
    rw [hlists hs, farEnds_inboundLinks, hen.map_some_peers hsource]
  · intro s t hs
    rw [hlists hs, ← hen.map_some_peers hsource]
    exact ((perm_farEnds_inboundLinks hsource .outgoing s).filterMap _).map _
  · intro k d t u hk hu
    rw [hlists (Renaming.slot?_of_get? hk)] at hu
    obtain ⟨x, _, hx⟩ := List.mem_filterMap.mp hu
    have hnamed := (Renaming.slot?_eq_some_iff.mp hx).1
    exact ⟨⟨x.node, hnamed⟩, hen.find?_dest_eq_none hdest hnamed⟩

/-- Copying a consistent graph of weighted vertices into another one succeeds, and leaves a replica
there. -/
theorem copyInto_replica (hsource : source.Consistent) (hdest : dest.Sound) :
    ∃ names, (source.copyInto dest).val.2 = .ok names ∧
      Replica source dest (source.copyInto dest).val.1 names := by
  obtain ⟨h, names, hen, hok, hr, hpeers⟩ := copyInto_eq hsource hdest.bounded
  exact ⟨names, hok, replica_of_enrolled hsource hdest.bounded hen hr
    (hdest.consistent.copyInto source) hpeers⟩

/-- Two vertices. The output of the first was connected to the second input of the other one, to the
first, and to the second again. -/
def braid (id : GraphId) : Graph (Node .multi Unit) :=
  let second : NodeId := NodeId.first.next
  let g := ((Graph.empty id).insert (Node.new () 0 1)).val.1
  let g := (g.insert (Node.new () 2 0)).val.1
  let g := (g.connect .outgoing ⟨.first, 0⟩ ⟨second, 1⟩).val.1
  let g := (g.connect .outgoing ⟨.first, 0⟩ ⟨second, 0⟩).val.1
  (g.connect .outgoing ⟨.first, 0⟩ ⟨second, 1⟩).val.1

theorem sound_braid (id : GraphId) : (braid id).Sound := by
  have hempty : (Graph.empty id : Graph (Node .multi Unit)).Sound := .of_vertices_eq_empty rfl
  exact ((((hempty.insert _).insert _).connect _ _ _).connect _ _ _).connect _ _ _

/-- A braid is copied to where there is one already. The copy of the output lists the inputs in
ascending order. -/
theorem copyInto_replica_braid :
    (braid .first).Consistent ∧ (braid ⟨2⟩).Sound ∧ ∃ names,
      ((braid .first).copyInto (braid ⟨2⟩)).val.2 = .ok names ∧
        Replica (braid .first) (braid ⟨2⟩) ((braid .first).copyInto (braid ⟨2⟩)).val.1 names ∧
        ((braid .first).copyInto (braid ⟨2⟩)).val.1.peers .outgoing ⟨⟨3, by decide⟩, 0⟩ =
          [⟨⟨4, by decide⟩, 0⟩, ⟨⟨4, by decide⟩, 1⟩, ⟨⟨4, by decide⟩, 1⟩] := by
  obtain ⟨names, hok, hreplica⟩ :=
    copyInto_replica (sound_braid .first).consistent (sound_braid ⟨2⟩)
  exact ⟨(sound_braid .first).consistent, sound_braid ⟨2⟩, names, hok, hreplica, by decide⟩

end PortGraph.Graph
