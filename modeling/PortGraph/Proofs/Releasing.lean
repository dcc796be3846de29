import PortGraph.Proofs.Runs
import PortGraph.Proofs.Weighted

/-!
# Releasing a part of a graph

A set of vertices is released from a graph of weighted vertices into another one. The vertices are
severed from the others one after the other, each with the connections that are left at its turn,
and then carried over one by one. What this comes to is said by `Released`: the source is left with
the subgraph that the other vertices induce, and the destination gains the one that the vertices of
the set induce, renamed. Connections that cross between the two are lost, and no others.

If a vertex of the set is missing, the smallest such identifier is named and nothing is changed
(`ReleaseOutcome`).
-/

namespace PortGraph

variable {φ : Flavour}

/-! ## Induced subgraphs -/

/-- The port without its connections to vertices that are not to be kept. -/
def Port.restrict (p : Port φ) (keep : NodeId → Bool) : Port φ where
  offset := p.offset
  opposites := p.opposites.filter fun s => keep s.node
  length_le h := Nat.le_trans (List.length_filter_le _ _) (p.length_le h)

/-- The vertex without its connections to vertices that are not to be kept. -/
def Vertex.restrict {ν : Type} [Vertex φ ν] (keep : NodeId → Bool) (v : ν) : ν :=
  mapPorts (·.restrict keep) v

theorem Vertex.rewired_restrict {ν : Type} [Vertex φ ν] [LawfulPorts φ ν] (keep : NodeId → Bool)
    (v : ν) : Rewired v (restrict keep v) :=
  rewired_mapPorts (f := (·.restrict keep)) (fun _ => rfl) v

theorem Vertex.peers_restrict {ν : Type} [Vertex φ ν] [LawfulPorts φ ν] (keep : NodeId → Bool)
    (d : Direction) (i : Nat) (v : ν) :
    peers d i (restrict keep v) = (peers d i v).filter fun s => keep s.node :=
  peers_mapPorts (f := (·.restrict keep)) (g := List.filter fun s => keep s.node)
    (fun _ => rfl) rfl d i v

namespace Graph

section Induced

variable {ν : Type} [Vertex φ ν]

/-- The vertices that are to be kept, with the connections among them. -/
def induced (g : Graph ν) (keep : NodeId → Bool) : Graph ν :=
  { g with
    vertices := (g.vertices.filter fun k _ => keep k).mapValues fun _ v => Vertex.restrict keep v }

theorem find?_induced (g : Graph ν) (keep : NodeId → Bool) (k : NodeId) :
    (g.induced keep).find? k =
      if keep k = true then (g.find? k).map (Vertex.restrict keep) else none := by
  have hmap := IdMap.get?_mapValues (g.vertices.filter fun k _ => keep k)
    (fun _ v => Vertex.restrict keep v) k
  have hfilter := IdMap.get?_filter g.vertices (fun k _ => keep k) k
  change (g.induced keep).find? k = _ at hmap
  change _ = Option.filter _ (g.find? k) at hfilter
  rw [hmap, hfilter]
  cases g.find? k with
  | none => simp
  | some v => cases keep k <;> simp [Option.filter]

/-- The opposites listed in an induced subgraph are those of kept vertices that are to be kept. -/
theorem peers_induced [LawfulPorts φ ν] (g : Graph ν) (keep : NodeId → Bool) (d : Direction)
    (s : Slot) :
    (g.induced keep).peers d s =
      if keep s.node = true then (g.peers d s).filter fun t => keep t.node else [] := by
  have hfind := g.find?_induced keep s.node
  by_cases hs : keep s.node = true
  · rw [if_pos hs] at hfind ⊢
    cases hv : g.find? s.node with
    | none =>
      rw [hv] at hfind
      rw [peers_eq_nil_of_find? hfind, peers_eq_nil_of_find? hv]
      rfl
    | some v =>
      rw [hv] at hfind
      rw [peers_eq_of_find? hfind, peers_eq_of_find? hv, Vertex.peers_restrict]
  · rw [if_neg hs] at hfind ⊢
    exact peers_eq_nil_of_find? hfind

/-- Of the connections those between kept vertices are in the induced subgraph. -/
theorem multiplicity_induced [LawfulPorts φ ν] (g : Graph ν) (keep : NodeId → Bool) (l : Link) :
    (g.induced keep).multiplicity l =
      if keep l.output.node = true ∧ keep l.input.node = true then g.multiplicity l else 0 := by
  rw [multiplicity, peers_induced]
  by_cases ho : keep l.output.node = true
  · by_cases hi : keep l.input.node = true
    · rw [if_pos ho, if_pos ⟨ho, hi⟩]
      exact List.count_filter (p := fun t : Slot => keep t.node) hi
    · rw [if_pos ho, if_neg (fun h => hi h.2), List.count_eq_zero]
      exact fun hmem => hi (List.mem_filter.mp hmem).2
  · rw [if_neg ho, if_neg (fun h => ho h.1), List.count_nil]

end Induced

/-! ## What a release comes to -/

/-- The vertices `subset` of `source` were moved to `dest` under the new names `names`. -/
structure Released {ω : Type} (source : Graph (Node φ ω)) (subset : List NodeId)
    (dest : Graph (Node φ ω)) (t : Transfer (Node φ ω)) (names : Renaming) : Prop where
  answer : t.answer = .ok names
  /-- The vertices of the set have new names, which follow the counter in the order of the old ones.
  -/
  domain (k : NodeId) : (∃ a, names.get? k = some a) ↔ k ∈ subset
  numbering : names.Numbering (source.chosen subset) dest.next
  /-- The other vertices are left, with the connections among them. -/
  source_eq : t.source = source.induced fun k => !subset.contains k
  id_eq : t.dest.id = dest.id
  next_eq : t.dest.next.val = dest.next.val + (source.chosen subset).length
  /-- Every vertex that there was in the destination is as it was. -/
  kept {a : NodeId} {v : Node φ ω} (hv : dest.find? a = some v) : t.dest.find? a = some v
  /-- No others are stored there than these and the moved ones. -/
  stored_iff (a : NodeId) :
    t.dest.contains a = true ↔ dest.contains a = true ∨ ∃ k, names.get? k = some a
  /-- A moved vertex differs in the names of what it lists, and in its membership. -/
  moved {k a : NodeId} {v : Node φ ω} (hk : names.get? k = some a)
    (hv : (source.induced subset.contains).find? k = some v) :
    t.dest.find? a =
      some (Vertex.renameLinks names.get? { v with binding := ⟨some ⟨dest.id, a⟩⟩ })
  /-- In its lists all opposites within the set are renamed, in the same order. -/
  opposites {s u : Slot} (hs : names.slot? s = some u) (d : Direction) :
    (t.dest.peers d u).map some =
      ((source.induced subset.contains).peers d s).map names.slot?
  /-- Connections outside the set stay, those at the set are gone from the source. -/
  multiplicity_source (l : Link) : t.source.multiplicity l =
    if l.output.node ∈ subset ∨ l.input.node ∈ subset then 0 else source.multiplicity l
  /-- Connections within the set were taken along. -/
  multiplicity_dest {l l' : Link} (hl : renamedLink? names l = some l') :
    t.dest.multiplicity l' = source.multiplicity l

/-- The vertices of the set were moved if all of them are there, and nothing was changed if not. -/
structure ReleaseOutcome {ω : Type} (source : Graph (Node φ ω)) (subset : List NodeId)
    (dest : Graph (Node φ ω)) (t : Transfer (Node φ ω)) : Prop where
  released (h : ∀ k ∈ subset, source.contains k = true) :
    ∃ names, Released source subset dest t names
  /-- The smallest identifier that is missing is named. -/
  refused (h : ¬∀ k ∈ subset, source.contains k = true) :
    ∃ k ∈ subset, ¬source.contains k = true ∧
      (∀ j ∈ subset, ¬source.contains j = true → k ≤ j) ∧
        t = ⟨source, dest, .error (.migrationTargetNotInSource k)⟩

variable {ω : Type} {source dest : Graph (Node φ ω)} {subset : List NodeId}

/-- Severing restricts every vertex to its side. -/
theorem find?_severed (hsource : source.Consistent) (subset : List NodeId) (k : NodeId) :
    (source.severed subset).find? k = (source.find? k).map
      (Vertex.restrict fun j => subset.contains j == subset.contains k) := by
  have hr := rewired_severed hsource subset
  cases hv : source.find? k with
  | none => exact hr.find?_eq_none hv
  | some v =>
    obtain ⟨u, hu, hvu⟩ := hr.exists_find? hv
    rw [hu]
    refine congrArg some (Node.eq_of_rewired hvu (Vertex.rewired_restrict _ v) ?_)
    intro d i
    have hpeers := peers_severed hsource subset d ⟨k, i⟩
    rw [peers_eq_of_find? hu, peers_eq_of_find? hv] at hpeers
    refine hpeers.trans (Eq.trans ?_ (Vertex.peers_restrict _ d i v).symm)
    apply List.filter_congr
    intro t _
    rw [crosses_eq subset d, Link.side_between, Link.side_opposite_between]
    cases subset.contains k <;> cases subset.contains t.node <;> rfl

/-- On the side of the set this is what the set induces. -/
theorem find?_severed_of_mem (hsource : source.Consistent) {k : NodeId} (hk : k ∈ subset) :
    (source.severed subset).find? k = (source.induced subset.contains).find? k := by
  have hcontains : subset.contains k = true := List.contains_iff_mem.mpr hk
  rw [find?_severed hsource, find?_induced, hcontains, if_pos rfl]
  simp only [beq_true]

/-- On the other side it is what the other vertices induce. -/
theorem severed_without_chosen (hsource : source.Consistent)
    (hsub : ∀ k ∈ subset, source.contains k = true) :
    (source.severed subset).without (source.chosen subset) =
      source.induced fun k => !subset.contains k := by
  have hr := rewired_severed hsource subset
  refine ext_find? hr.id_eq hr.next_eq fun k => ?_
  rw [find?_without, contains_chosen hsub, find?_induced]
  cases hk : subset.contains k with
  | true => rfl
  | false =>
    rw [if_neg Bool.false_ne_true, find?_severed hsource, hk]
    simp only [beq_false, Bool.not_false, if_true]

section Moved

variable {h : Graph (Node φ ω)} {names : Renaming}

/-- The vertices of the set are all moved. -/
theorem map_fst_movers_severed (hsource : source.Consistent) (subset : List NodeId) :
    ((source.severed subset).movers (source.chosen subset)).map Prod.fst =
      source.chosen subset := by
  apply map_fst_movers
  intro k hk
  rw [(rewired_severed hsource subset).contains_eq]
  exact (mem_chosen_iff.mp hk).1

/-- A moved vertex is the one of the induced subgraph, renamed and told its membership. -/
theorem find?_relink_of_released (hsource : source.Consistent)
    (hen : Enrolled dest ((source.severed subset).movers (source.chosen subset)) h names)
    {k a : NodeId} {v : Node φ ω} (hk : names.get? k = some a) (hmem : k ∈ subset)
    (hv : (source.induced subset.contains).find? k = some v) :
    (h.relink names).find? a =
      some (Vertex.renameLinks names.get? { v with binding := ⟨some ⟨dest.id, a⟩⟩ }) := by
  rw [← find?_severed_of_mem hsource hmem] at hv
  rw [hen.find?_relink hk hv, Node.rejoin_eq]

/-- It lists the new names of what it listed there. -/
theorem peers_relink_of_released (hsource : source.Consistent)
    (hen : Enrolled dest ((source.severed subset).movers (source.chosen subset)) h names)
    {s u : Slot} (hs : names.slot? s = some u) (hmem : s.node ∈ subset)
    (hstored : source.contains s.node = true) (d : Direction) :
    (h.relink names).peers d u =
      ((source.induced subset.contains).peers d s).filterMap names.slot? := by
  obtain ⟨hk, hoffset⟩ := Renaming.slot?_eq_some_iff.mp hs
  obtain ⟨v, hv⟩ := contains_iff.mp hstored
  have hv' : (source.induced subset.contains).find? s.node =
      some (Vertex.restrict subset.contains v) := by
    rw [find?_induced, if_pos (List.contains_iff_mem.mpr hmem), hv, Option.map_some]
  rw [peers_eq_of_find? (find?_relink_of_released hsource hen hk hmem hv'),
    peers_eq_of_find? hv', Vertex.peers_renameLinks, hoffset]
  cases d <;> rfl

/-- In the induced subgraph all opposites are in the set. -/
theorem mem_of_mem_peers_induced {d : Direction} {s t : Slot}
    (ht : t ∈ (source.induced subset.contains).peers d s) : t.node ∈ subset := by
  rw [peers_induced] at ht
  split at ht
  · exact List.contains_iff_mem.mp (List.mem_filter.mp ht).2
  · cases ht

end Moved

/-- A release of vertices that are all there. -/
theorem released_of_forall_contains (hsource : source.Consistent) (hdest : dest.Bounded)
    (hsub : ∀ k ∈ subset, source.contains k = true) :
    ∃ names, Released source subset dest (source.releaseInto subset dest).val names := by
  obtain ⟨h, names, hval, hen, hdomain⟩ := releaseInto_eq hsource hdest hsub
  have hkeys := map_fst_movers_severed hsource subset
  have hnamed {s u : Slot} (hs : names.slot? s = some u) : s.node ∈ subset :=
    (hdomain s.node).mp ⟨u.node, (Renaming.slot?_eq_some_iff.mp hs).1⟩
  have hpeers {s u : Slot} (hs : names.slot? s = some u) (d : Direction) :=
    peers_relink_of_released hsource hen hs (hnamed hs) (hsub _ (hnamed hs)) d
  rw [hval, severed_without_chosen hsource hsub]
  refine ⟨names, rfl, hdomain, hkeys ▸ hen.numbering, rfl,
    (h.rewired_relink names).id_eq.trans hen.id_eq, ?_, ?_, ?_, ?_, ?_, ?_, ?_⟩
  · have hlength := congrArg List.length hkeys
    rw [List.length_map] at hlength
    rw [(h.rewired_relink names).next_eq, hen.next_eq, hlength]
  · intro a v hv
    rw [hen.find?_relink_of_not_named (hen.not_named_of_find? hdest hv), hv]
  · intro a
    rw [(h.rewired_relink names).contains_eq, hen.stored_iff]
  · intro k a v hk hv
    exact find?_relink_of_released hsource hen hk ((hdomain k).mp ⟨a, hk⟩) hv
  · intro s u hs d
    rw [hpeers hs]
    exact Renaming.map_some_filterMap fun t ht =>
      (hdomain t.node).mpr (mem_of_mem_peers_induced ht)
  · intro l
    rw [multiplicity_induced]
    by_cases ho : l.output.node ∈ subset <;> by_cases hi : l.input.node ∈ subset <;> simp [ho, hi]
  · intro l l' hl
    have hs := Renaming.slot?_side hl .outgoing
    have ht := Renaming.slot?_side hl .incoming
    have hends := multiplicity_induced source subset.contains l
    rw [if_pos ⟨List.contains_iff_mem.mpr (hnamed hs), List.contains_iff_mem.mpr (hnamed ht)⟩]
      at hends
    calc (h.relink names).multiplicity l'
        = ((h.relink names).peers .outgoing (l'.side .outgoing)).count (l'.side .incoming) := rfl
      _ = (source.induced subset.contains).multiplicity l := by
          rw [hpeers hs, hen.injective.count_filterMap ht]
          rfl
      _ = source.multiplicity l := hends

/-- Releasing vertices into a graph, or into a new one, moves them if all of them are there and
changes nothing if not. -/
theorem releaseInto_outcome (hsource : source.Consistent) (hdest : dest.Sound)
    (subset : List NodeId) :
    ReleaseOutcome source subset dest (source.releaseInto subset dest).val ∧
      ∀ id, ReleaseOutcome source subset (.empty id) (source.releaseSet subset id).val := by
  have houtcome {dest : Graph (Node φ ω)} (hdest : dest.Sound) :
      ReleaseOutcome source subset dest (source.releaseInto subset dest).val :=
    ⟨released_of_forall_contains hsource hdest.bounded, releaseInto_of_missing dest⟩
  exact ⟨houtcome hdest, fun id => houtcome (.of_vertices_eq_empty rfl)⟩

/-- Three vertices in a row, the first two of them connected twice and each connected to itself. -/
def row (id : GraphId) : Graph (Node .multi Unit) :=
  let second : NodeId := NodeId.first.next
  let third : NodeId := second.next
  let g := ((Graph.empty id).insert (Node.new () 1 1)).val.1
  let g := (g.insert (Node.new () 1 1)).val.1
  let g := (g.insert (Node.new () 1 1)).val.1
  let g := (g.connect .outgoing ⟨.first, 0⟩ ⟨second, 0⟩).val.1
  let g := (g.connect .outgoing ⟨second, 0⟩ ⟨third, 0⟩).val.1
  let g := (g.connect .outgoing ⟨.first, 0⟩ ⟨.first, 0⟩).val.1
  let g := (g.connect .outgoing ⟨second, 0⟩ ⟨second, 0⟩).val.1
  (g.connect .outgoing ⟨.first, 0⟩ ⟨second, 0⟩).val.1

theorem sound_row (id : GraphId) : (row id).Sound := by
  have hempty : (Graph.empty id : Graph (Node .multi Unit)).Sound := .of_vertices_eq_empty rfl
  have hvertices := ((hempty.insert (Node.new () 1 1)).insert (Node.new () 1 1)).insert
    (Node.new () 1 1)
  exact ((((hvertices.connect _ _ _).connect _ _ _).connect _ _ _).connect _ _ _).connect _ _ _

/-- The first two vertices of a row are released into another row, where they stay connected twice.
Nothing is left for the third one to list. -/
theorem releaseInto_outcome_row :
    let second : NodeId := NodeId.first.next
    let t := ((row .first).releaseInto [second, .first, second] (row ⟨2⟩)).val
    (row .first).Consistent ∧ (row ⟨2⟩).Sound ∧
      ReleaseOutcome (row .first) [second, .first, second] (row ⟨2⟩) t ∧
      t.source.peers .incoming ⟨second.next, 0⟩ = [] ∧
      t.dest.peers .outgoing ⟨⟨4, by decide⟩, 0⟩ =
        [⟨⟨5, by decide⟩, 0⟩, ⟨⟨4, by decide⟩, 0⟩, ⟨⟨5, by decide⟩, 0⟩] := by
  intro second t
  have houtcome := releaseInto_outcome (sound_row .first).consistent (sound_row ⟨2⟩)
    [second, .first, second]
  exact ⟨(sound_row .first).consistent, sound_row ⟨2⟩, houtcome.1, by decide, by decide⟩

end Graph

end PortGraph
