import PortGraph.Graph.Text
import PortGraph.Proofs.Tidying
import PortGraph.Proofs.Visiting
import PortGraph.Proofs.Weighted

/-!
# What a revision that leaves the ports alone changes

A revision that gives a vertex another weight, say, is not meant to change the wiring of the graph.
It does so only in one way: the outputs of the vertex are tidied, which puts loops first. Every list
stays as it was exactly if the outputs were tidy (`Retouched.peers_eq_iff`), as single ports always
are, and multiple ports without loops. Then the vertices have the same neighbours in the same order,
and the text of the graph is the same but for the labels. The order in which a sort emits the
vertices never changes, because a search does not push a vertex that it enters.
-/

namespace PortGraph

/-! ## Neighbours and tidy lists -/

/-- Repetitions can be removed before or after other elements. -/
theorem NodeId.filter_eraseDups (p : NodeId → Bool) (ids : List NodeId) :
    ids.eraseDups.filter p = (ids.filter p).eraseDups := by
  cases ids with
  | nil => rfl
  | cons id rest =>
    have ih := filter_eraseDups p (rest.filter fun k => !k == id)
    rw [List.filter_filter] at ih
    by_cases hid : p id = true
    · rw [List.eraseDups_cons, List.filter_cons_of_pos hid, List.filter_cons_of_pos hid, ih,
        List.eraseDups_cons, List.filter_filter]
      simp only [Bool.and_comm]
    · rw [List.eraseDups_cons, List.filter_cons_of_neg hid, List.filter_cons_of_neg hid, ih]
      refine congrArg _ (List.filter_congr fun k _ => ?_)
      by_cases hk : k = id
      · simp [hk, hid]
      · simp [hk]
termination_by ids.length
decreasing_by exact Nat.lt_succ_of_le (List.length_filter_le _ _)

namespace Vertex

variable {φ : Flavour} {ν : Type} [Vertex φ ν]

/-- Of as many ports, what is made of the list of each port is the same where it is at every
position. -/
theorem map_opposites_congr {γ : Type} {F : List Slot → γ} {v w : ν} {d : Direction}
    (hoffsets : (ports d w).map Port.offset = (ports d v).map Port.offset)
    (hpeers : ∀ i, F (peers d i w) = F (peers d i v)) :
    (ports d w).map (fun p => F p.opposites) = (ports d v).map fun p => F p.opposites := by
  apply List.ext_getElem?
  intro i
  have hoffset := congrArg (·[i]?) hoffsets
  have hlists := hpeers i
  simp only [List.getElem?_map] at hoffset ⊢
  unfold peers port? at hlists
  cases hp : (ports d v)[i]? with
  | none =>
    rw [hp] at hoffset
    rw [Option.map_eq_none_iff.mp hoffset]
  | some p =>
    rw [hp] at hoffset hlists
    obtain ⟨q, hq, _⟩ := Option.map_eq_some_iff.mp hoffset
    rw [hq] at hlists ⊢
    exact congrArg some hlists

/-- The neighbours of a vertex that pass a test are those that pass it at each port. -/
theorem filter_neighbours (p : NodeId → Bool) (d : Direction) (v : ν) :
    (neighbours d v).filter p =
      ((ports d v).map fun q => (q.opposites.map Slot.node).filter p).flatten.eraseDups := by
  rw [neighbours, NodeId.filter_eraseDups, List.filter_flatMap, List.flatMap_def]

end Vertex

namespace Graph

variable {φ : Flavour} {ν : Type}

/-- What is made of the entries of two graphs is the same where it is under every identifier. -/
theorem map_entries_congr {γ : Type} {g h : Graph ν} {F F' : NodeId → ν → γ} (hids : h.ids = g.ids)
    (hvertices : ∀ k, (h.find? k).map (F' k) = (g.find? k).map (F k)) :
    (h.vertices.entries.map fun e => F' e.1 e.2) = g.vertices.entries.map fun e => F e.1 e.2 := by
  have hentries (f : Graph ν) (G : NodeId → ν → γ) :
      (f.vertices.entries.map fun e => G e.1 e.2) =
        f.ids.filterMap fun k => (f.find? k).map (G k) := by
    rw [← f.entriesOf_ids, entriesOf, List.map_filterMap]
    simp only [Option.map_map]
    rfl
  rw [hentries, hentries, hids]
  exact List.filterMap_congr fun k _ => hvertices k

variable [Vertex φ ν]

/-- The lines of a vertex depend on its label and its outputs. -/
theorem vertexLines_congr {label label' : String} {k : NodeId} {v w : ν} (hlabel : label' = label)
    (hports : Vertex.ports .outgoing w = Vertex.ports .outgoing v) :
    vertexLines label' k w = vertexLines label k v := by
  unfold vertexLines Vertex.contacts
  rw [hlabel, hports]

namespace Tidied

variable {g h : Graph ν} {ks : List NodeId}

/-! ## What every tidied graph shows -/

/-- The same identifiers are in use. -/
theorem ids_eq (ht : Tidied g ks h) : h.ids = g.ids :=
  IdMap.keys_congr fun k => isSome_eq_of_rel (ht.vertices k)

/-- Every port lists what it listed, perhaps in another order. -/
theorem perm_peers (ht : Tidied g ks h) (d : Direction) (s : Slot) :
    (h.peers d s).Perm (g.peers d s) := by
  cases d with
  | incoming => exact .of_eq (ht.inputs s)
  | outgoing =>
    by_cases hs : s.node ∈ ks
    · rw [ht.outputs hs]
      exact Slot.perm_tidy _ _
    · exact .of_eq (ht.peers_of_not_mem .outgoing hs)

/-- The order is the same too where the outputs of the vertices were tidy, and only there. -/
theorem peers_eq_iff (ht : Tidied g ks h) :
    (∀ d s, h.peers d s = g.peers d s) ↔
      ∀ s, s.node ∈ ks → Slot.IsTidy s.node (g.peers .outgoing s) := by
  constructor
  · intro hpeers s hs
    rw [← Slot.tidy_eq_self_iff, ← ht.outputs hs, hpeers]
  · intro htidy d s
    cases d with
    | incoming => exact ht.inputs s
    | outgoing =>
      by_cases hs : s.node ∈ ks
      · rw [ht.outputs hs, Slot.tidy_eq_self_iff.mpr (htidy s hs)]
      · exact ht.peers_of_not_mem .outgoing hs

/-- What is shown of the neighbours of a vertex depends on what is shown of the lists of its ports.
-/
theorem filter_neighbours_congr (ht : Tidied g ks h) {p : NodeId → Bool} {d : Direction}
    {k : NodeId} (hpeers : ∀ i, ((h.peers d ⟨k, i⟩).map Slot.node).filter p =
      ((g.peers d ⟨k, i⟩).map Slot.node).filter p) :
    (h.neighbours d k).filter p = (g.neighbours d k).filter p := by
  unfold Graph.neighbours
  cases hv : g.find? k with
  | none => rw [ht.find?_eq_none hv]
  | some v =>
    obtain ⟨w, hw, halike⟩ := ht.exists_find? hv
    have hlists (i : Nat) : ((Vertex.peers d i w).map Slot.node).filter p =
        ((Vertex.peers d i v).map Slot.node).filter p := by
      have hi := hpeers i
      rwa [peers_eq_of_find? hw, peers_eq_of_find? hv] at hi
    rw [hw]
    simp only [Vertex.filter_neighbours]
    rw [Vertex.map_opposites_congr (F := fun l => (l.map Slot.node).filter p) (halike.offsets d)
      hlists]

/-- The neighbours of a vertex are the same, in the same order, if its ports list the same. -/
theorem neighbours_eq (ht : Tidied g ks h) {d : Direction}
    (hpeers : ∀ s, h.peers d s = g.peers d s) (k : NodeId) :
    h.neighbours d k = g.neighbours d k := by
  have hall (ids : List NodeId) : ids.filter (fun _ => true) = ids :=
    List.filter_eq_self.mpr fun _ _ => rfl
  rw [← hall (h.neighbours d k), ← hall (g.neighbours d k)]
  exact ht.filter_neighbours_congr fun i => by rw [hpeers]

/-- The neighbours of a vertex other than itself are the same, in the same order. -/
theorem filter_neighbours_eq (ht : Tidied g ks h) (d : Direction) (k : NodeId) :
    ((h.neighbours d k).filter fun j => j ≠ k) = (g.neighbours d k).filter fun j => j ≠ k := by
  refine ht.filter_neighbours_congr fun i => ?_
  have hlists : ((h.peers d ⟨k, i⟩).filter fun t => t.node ≠ k) =
      (g.peers d ⟨k, i⟩).filter fun t => t.node ≠ k := by
    cases d with
    | incoming => rw [ht.inputs]
    | outgoing =>
      by_cases hk : k ∈ ks
      · have houtput : h.peers .outgoing ⟨k, i⟩ = Slot.tidy k (g.peers .outgoing ⟨k, i⟩) :=
          ht.outputs hk
        rw [houtput, Slot.filter_ne_tidy]
      · rw [ht.peers_of_not_mem .outgoing hk]
  rw [List.filter_map, List.filter_map]
  exact congrArg (List.map Slot.node) hlists

/-- A sort emits the vertices in the same order. -/
theorem sort_eq (ht : Tidied g ks h) (d : Direction) : (h.sort d).val = (g.sort d).val := by
  rw [val_sort, val_sort, ht.ids_eq]
  exact Search.order_run_congr (fun k => ht.filter_neighbours_eq d k) g.vertices.nodup_keys none

/-- The texts of the graphs are the same but for the labels of the vertices if the outputs list the
same. -/
theorem textWith_eq (ht : Tidied g ks h)
    (hpeers : ∀ s, h.peers .outgoing s = g.peers .outgoing s) {label label' : ν → String}
    (hlabel : ∀ k v w, g.find? k = some v → h.find? k = some w → label' w = label v) :
    h.textWith label' = g.textWith label := by
  have hsize : h.size = g.size := by
    rw [← length_ids, ht.ids_eq, length_ids]
  have hlines (k : NodeId) : ((h.find? k).map fun w => vertexLines (label' w) k w) =
      (g.find? k).map fun v => vertexLines (label v) k v := by
    cases hv : g.find? k with
    | none => rw [ht.find?_eq_none hv, Option.map_none, Option.map_none]
    | some v =>
      obtain ⟨w, hw, halike⟩ := ht.exists_find? hv
      have hports : Vertex.ports .outgoing w = Vertex.ports .outgoing v := by
        refine Vertex.ports_ext (halike.offsets .outgoing) fun i => ?_
        have hi := hpeers ⟨k, i⟩
        rwa [peers_eq_of_find? hw, peers_eq_of_find? hv] at hi
      rw [hw, Option.map_some, Option.map_some, vertexLines_congr (hlabel k v w hv hw) hports]
  unfold textWith
  rw [ht.id_eq, hsize]
  exact congrArg (_ ++ String.join ·) (map_entries_congr ht.ids_eq hlines)

end Tidied

/-! ## Revisions -/

/-- What becomes of a graph `g` of which the vertices `ks` were revised to vertices of the same
wiring. -/
structure Retouched (g : Graph ν) (ks : List NodeId) (h : Graph ν) : Prop where
  /-- The vertices are tidied. All else is as it was, but for what neither the membership of a
  vertex nor its ports show. -/
  tidied : Tidied g ks h
  ids_eq : h.ids = g.ids
  /-- Every port lists what it listed. -/
  perm_peers (d : Direction) (s : Slot) : (h.peers d s).Perm (g.peers d s)
  /-- All lists are in the order in which they were if those of the outputs of the vertices were
  tidy, and only then. -/
  peers_eq_iff : (∀ d s, h.peers d s = g.peers d s) ↔
    ∀ s, s.node ∈ ks → Slot.IsTidy s.node (g.peers .outgoing s)
  peers_eq_of_single (hφ : φ = .single) (d : Direction) (s : Slot) : h.peers d s = g.peers d s
  peers_eq_of_no_loops (hks : ∀ k ∈ ks, k ∉ g.neighbours .outgoing k) (d : Direction) (s : Slot) :
    h.peers d s = g.peers d s
  /-- Ports that list the same show the same neighbours. -/
  neighbours_eq {d : Direction} (hpeers : ∀ s, h.peers d s = g.peers d s) (k : NodeId) :
    h.neighbours d k = g.neighbours d k
  /-- In any case only the vertex itself may have another place among its neighbours. -/
  filter_neighbours_eq (d : Direction) (k : NodeId) :
    ((h.neighbours d k).filter fun j => j ≠ k) = (g.neighbours d k).filter fun j => j ≠ k
  /-- In any case a sort emits the vertices in the same order. -/
  sort_eq (d : Direction) : (h.sort d).val = (g.sort d).val
  /-- Outputs that list the same show the same text. -/
  textWith_eq (hpeers : ∀ s, h.peers .outgoing s = g.peers .outgoing s)
    {label label' : ν → String}
    (hlabel : ∀ k v w, g.find? k = some v → h.find? k = some w → label' w = label v) :
    h.textWith label' = g.textWith label

/-- What is tidied is retouched. -/
theorem Tidied.retouched {g h : Graph ν} {ks : List NodeId} (ht : Tidied g ks h) :
    Retouched g ks h where
  tidied := ht
  ids_eq := ht.ids_eq
  perm_peers := ht.perm_peers
  peers_eq_iff := ht.peers_eq_iff
  peers_eq_of_single hφ :=
    ht.peers_eq_iff.mpr fun s _ => Slot.isTidy_of_length_le (g.length_peers_le .outgoing s hφ)
  peers_eq_of_no_loops hks := by
    refine ht.peers_eq_iff.mpr fun s hs => ?_
    refine List.pairwise_of_forall_mem_list fun _ _ t hmem hnode => ?_
    exact absurd (mem_neighbours.mpr ⟨s.offset, t, hmem, hnode⟩) (hks _ hs)
  neighbours_eq := ht.neighbours_eq
  filter_neighbours_eq := ht.filter_neighbours_eq
  sort_eq := ht.sort_eq
  textWith_eq := ht.textWith_eq

variable [LawfulPorts φ ν]

/-- In a consistent graph whose vertices know where they are, a revision that leaves the membership
and the ports of a vertex as they were changes no wiring but for the place of loops in the outputs
of the vertex, and revising every vertex in this way changes no more than that of any vertex. -/
theorem revisions_retouch {g : Graph ν} (hg : g.Consistent) (hplaced : g.Placed) :
    (∀ (ρ : Type) (f : ν → Journaled (ν × ρ)) (id : NodeId) (v : ν), g.find? id = some v →
      Vertex.SameWiring v (f v).val.1 →
        (g.modify id f).val.2 = .ok (f v).val.2 ∧
          (∃ w, (g.modify id f).val.1.find? id = some w ∧ Vertex.Rewired (f v).val.1 w) ∧
          Retouched g [id] (g.modify id f).val.1) ∧
      ∀ (σ : Type) (f : σ → NodeId → ν → Journaled (ν × σ)) (x : σ),
        (∀ x k v, g.find? k = some v → Vertex.SameWiring v (f x k v).val.1) →
          Retouched g g.ids (g.modifyEach f x).val.1 := by
  constructor
  · intro ρ f id v hv hf
    obtain ⟨hanswer, htidied, hvertex⟩ := tidied_modify hg hplaced hv hf
    exact ⟨hanswer, hvertex, htidied.retouched⟩
  · intro σ f x hf
    exact (tidied_modifyEach hg hplaced hf x).retouched

/-- A vertex whose output was connected to another vertex before it was connected to itself. -/
def knotted : Graph (Node .multi Nat) :=
  let g := ((Graph.empty .first).insert (Node.new 0 1 1)).val.1
  let g := (g.insert (Node.new 0 1 0)).val.1
  let g := (g.connect .outgoing ⟨.first, 0⟩ ⟨NodeId.first.next, 0⟩).val.1
  (g.connect .outgoing ⟨.first, 0⟩ ⟨.first, 0⟩).val.1

theorem consistent_knotted : knotted.Consistent := by
  have hempty : (Graph.empty .first : Graph (Node .multi Nat)).Consistent :=
    consistent_of_vertices_eq_empty rfl
  exact (((hempty.insert _).insert _).connect _ _ _).connect _ _ _

theorem placed_knotted : knotted.Placed := by
  have hempty : (Graph.empty .first : Graph (Node .multi Nat)).Placed :=
    placed_of_vertices_eq_empty rfl
  have hknotted : Continues (Graph.empty .first) knotted :=
    (((Continues.insert _ _).trans (.insert _ _)).trans
      (.remnant (refitted_connect _ _ _ _).toRemnant)).trans
        (.remnant (refitted_connect _ _ _ _).toRemnant)
  exact hknotted.placed hempty

/-- Another weight leaves the wiring of a vertex alone. -/
theorem sameWiring_reweighed (v : Node .multi Nat) :
    Vertex.SameWiring v { v with weight := 1 } where
  membership_eq := rfl
  ports_eq d := by cases d <;> rfl

/-- The vertex is retouched when it is given another weight, and both vertices are when each of them
is. -/
theorem revisions_retouch_knotted :
    knotted.Consistent ∧ knotted.Placed ∧ ∃ v, knotted.find? .first = some v ∧
      (knotted.modify .first fun v => pure ({ v with weight := 1 }, ())).val.2 = .ok () ∧
      Retouched knotted [.first]
        (knotted.modify .first fun v => pure ({ v with weight := 1 }, ())).val.1 ∧
      Retouched knotted knotted.ids
        (knotted.modifyEach (fun _ _ v => pure ({ v with weight := 1 }, ())) ()).val.1 := by
  obtain ⟨v, hv⟩ : ∃ v, knotted.find? .first = some v := ⟨_, rfl⟩
  obtain ⟨hone, heach⟩ := revisions_retouch consistent_knotted placed_knotted
  obtain ⟨hanswer, _, hretouched⟩ := hone Unit (fun v => pure ({ v with weight := 1 }, ())) .first v
    hv (sameWiring_reweighed v)
  exact ⟨consistent_knotted, placed_knotted, v, hv, hanswer, hretouched,
    heach Unit (fun _ _ v => pure ({ v with weight := 1 }, ())) () fun _ _ v _ =>
      sameWiring_reweighed v⟩

/-- When the vertex is given another weight its output lists the loop first, and so it does when
both vertices are. The text of the graph has the lines of the connections in this order. -/
theorem modify_moves_loop :
    let f : Node .multi Nat → Journaled (Node .multi Nat × Unit) :=
      fun v => pure ({ v with weight := 1 }, ())
    knotted.Consistent ∧ knotted.Placed ∧ (∀ v, Vertex.SameWiring v (f v).val.1) ∧
      knotted.peers .outgoing ⟨.first, 0⟩ = [⟨NodeId.first.next, 0⟩, ⟨.first, 0⟩] ∧
      (knotted.modify .first f).val.1.peers .outgoing ⟨.first, 0⟩ =
        [⟨.first, 0⟩, ⟨NodeId.first.next, 0⟩] ∧
      (knotted.modifyEach (fun _ _ v => f v) ()).val.1.peers .outgoing ⟨.first, 0⟩ =
        [⟨.first, 0⟩, ⟨NodeId.first.next, 0⟩] ∧
      knotted.downstream .first = [NodeId.first.next, .first] ∧
      (knotted.modify .first f).val.1.downstream .first = [.first, NodeId.first.next] ∧
      (knotted.modify .first f).val.1.textWith (fun _ => "") ≠ knotted.textWith fun _ => "" := by
  exact ⟨consistent_knotted, placed_knotted, sameWiring_reweighed, by decide, by decide, by decide,
    by decide, by decide, by decide⟩

end Graph

end PortGraph
