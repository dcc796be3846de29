import PortGraph.Proofs.Identities
import PortGraph.Proofs.InputOrder
import PortGraph.Proofs.Weighted

/-!
# When a clone equals the original

A clone has the vertices of the original, under the same identifiers and with the same connections,
but these are made anew, in the order of the inputs. So each input lists what it listed in the
original, and each output the same in ascending order. As equality of graphs looks at the order of
the lists, a clone equals the original exactly if the outputs of the original are in this order
(`Cloned.beq_iff`). Single ports always are; multiple ports are not when an output was connected to
a later input first.
-/

namespace PortGraph

/-! ## Slots in ascending order -/

namespace Slot

/-- The slots, as ports of direction `d`, are in ascending order of their addresses. -/
def Ascending (d : Direction) (slots : List Slot) : Prop :=
  slots.Pairwise fun s t => (t.at d).precedes (s.at d) = false

theorem precedes_eq_false_iff {d : Direction} {s t : Slot} :
    (t.at d).precedes (s.at d) = false ↔ s.node.val < t.node.val ∨
      s.node.val = t.node.val ∧ s.offset ≤ t.offset := by
  have hprecedes : (t.at d).precedes (s.at d) = true ↔ t.node.val < s.node.val ∨
      t.node.val = s.node.val ∧ t.offset < s.offset := by
    unfold Address.precedes Slot.at
    rw [Bool.or_eq_true, Bool.and_eq_true, Bool.or_eq_true, Bool.and_eq_true, decide_eq_true_iff,
      decide_eq_true_iff, decide_eq_true_iff, beq_iff_eq, beq_iff_eq]
    simp only [Nat.lt_irrefl, false_or, true_and]
  rw [← Bool.not_eq_true, hprecedes]
  omega

/-- Slots have only one ascending order. -/
theorem Ascending.eq_of_perm {d : Direction} {slots slots' : List Slot} (h : Ascending d slots)
    (h' : Ascending d slots') (hperm : slots.Perm slots') : slots = slots' := by
  refine hperm.eq_of_pairwise (fun s t _ _ hst hts => ?_) h h'
  rw [precedes_eq_false_iff] at hst hts
  have hnode : s.node = t.node := NodeId.ext (by omega)
  have hoffset : s.offset = t.offset := by omega
  calc s = ⟨s.node, s.offset⟩ := rfl
    _ = ⟨t.node, t.offset⟩ := by rw [hnode, hoffset]
    _ = t := rfl

/-- At an output, the inputs of links in the order of the inputs are in ascending order. -/
theorem ascending_farEnds {ls : List Link} (hls : ls.Pairwise fun l m => Link.inputLE l m = true)
    (s : Slot) : Ascending .incoming (Link.farEnds .outgoing s ls) := by
  refine List.pairwise_map.mpr ((hls.sublist List.filter_sublist).imp fun hle => ?_)
  rw [Link.inputLE_iff] at hle
  exact precedes_eq_false_iff.mpr hle

end Slot

/-! ## Equality -/

namespace Node

variable {φ : Flavour} {ω : Type} [BEq ω]

theorem beq_iff {v w : Node φ ω} :
    (v == w) = true ↔ (v.weight == w.weight) = true ∧
      (∀ d, Vertex.ports d v = Vertex.ports d w) ∧ (v.binding == w.binding) = true := by
  have hports : (∀ d, Vertex.ports d v = Vertex.ports d w) ↔
      v.inputs = w.inputs ∧ v.outputs = w.outputs :=
    ⟨fun h => ⟨h .incoming, h .outgoing⟩, fun h d => by cases d; exacts [h.1, h.2]⟩
  change (v.weight == w.weight && v.inputs == w.inputs && v.outputs == w.outputs &&
    v.binding == w.binding) = true ↔ _
  rw [hports]
  simp only [Bool.and_eq_true, beq_iff_eq, and_assoc]

end Node

namespace Graph

variable {φ : Flavour} {ν : Type}

/-- Entries with the same keys are compared key by key. -/
theorem isEqv_entries_iff {same : ν → ν → Bool} {es fs : List (NodeId × ν)}
    (hes : es.Pairwise fun a b => a.1 < b.1) (hkeys : es.map Prod.fst = fs.map Prod.fst) :
    (es.isEqv fs fun a b => a.1 == b.1 && same a.2 b.2) = true ↔
      ∀ k v w, IdMap.lookup k es = some v → IdMap.lookup k fs = some w → same v w = true := by
  induction es generalizing fs with
  | nil =>
    cases fs with
    | nil => simp [IdMap.lookup]
    | cons f fs => cases hkeys
  | cons e es ih =>
    cases fs with
    | nil => cases hkeys
    | cons f fs =>
      obtain ⟨k₀, v₀⟩ := e
      obtain ⟨k₁, w₀⟩ := f
      obtain ⟨rfl, hrest⟩ := List.cons.inj hkeys
      obtain ⟨hfirst, hes'⟩ := List.pairwise_cons.mp hes
      have hnone : IdMap.lookup k₀ es = none := by
        apply IdMap.lookup_eq_none_of_forall_ne
        rintro x hx rfl
        exact NodeId.lt_irrefl _ (hfirst x hx)
      rw [List.isEqv, Bool.and_eq_true, ih hes' hrest]
      simp only [IdMap.lookup, beq_self_eq_true, Bool.true_and]
      constructor
      · rintro ⟨hsame, hothers⟩ k v w hv hw
        by_cases hk : k₀ = k
        · rw [if_pos hk] at hv hw
          cases hv
          cases hw
          exact hsame
        · rw [if_neg hk] at hv hw
          exact hothers k v w hv hw
      · intro h
        refine ⟨h k₀ v₀ w₀ (if_pos rfl) (if_pos rfl), fun k v w hv hw => ?_⟩
        have hk : k₀ ≠ k := by
          rintro rfl
          rw [hnone] at hv
          cases hv
        exact h k v w ((if_neg hk).trans hv) ((if_neg hk).trans hw)

/-- Graphs with the same identifiers are equal if the vertices are that share one. -/
theorem beq_iff [BEq ν] {g h : Graph ν} (hids : g.ids = h.ids) :
    (g == h) = true ↔ ∀ k v w, g.find? k = some v → h.find? k = some w → (v == w) = true :=
  isEqv_entries_iff g.vertices.ascending hids

/-! ## Clones of graphs of weighted vertices -/

/-- The clone of a graph is the same graph with another identity, except that its outputs list
their opposites in ascending order. -/
structure Cloned {ω : Type} [BEq ω] (g h : Graph (Node φ ω)) : Prop where
  id_ne : h.id ≠ g.id
  next_eq : h.next = g.next
  ids_eq : h.ids = g.ids
  /-- A vertex of the clone has the weight, the offsets and the inputs of the original, and the same
  identifier in its own graph. -/
  vertex {k : NodeId} {v : Node φ ω} (hv : g.find? k = some v) :
    ∃ w, h.find? k = some w ∧ Node.Copies v w ∧ w.inputs = v.inputs ∧
      (w.binding == v.binding) = true ∧ w.binding.membership = some ⟨h.id, k⟩
  /-- The outputs list the same opposites, in ascending order. -/
  perm_outputs (s : Slot) : (h.peers .outgoing s).Perm (g.peers .outgoing s)
  ascending_outputs (s : Slot) : Slot.Ascending .incoming (h.peers .outgoing s)
  /-- The graphs are equal where this order is the one of the original. -/
  beq_iff : (h == g) = true ↔ ∀ s, Slot.Ascending .incoming (g.peers .outgoing s)
  /-- Where ports take one connection at most there is only one order. -/
  beq_of_single (hφ : φ = .single) : (h == g) = true

section Clone

variable {ω : Type} {g : Graph (Node φ ω)}

/-- A clone has copies of the vertices under the same identifiers. -/
theorem exists_find?_clone (id : GraphId) {k : NodeId} {v : Node φ ω} (hv : g.find? k = some v) :
    ∃ w, (g.clone id).val.find? k = some w ∧ Node.Copies v w := by
  have hcopy := g.find?_unlinkedClone id k
  rw [hv, Option.map_some] at hcopy
  obtain ⟨w, hw, hrewired⟩ := (rewired_connectAll (g.unlinkedClone id)
    (g.inboundLinks.filterMap (renamedLink? g.ownNames))).exists_find? hcopy
  rw [val_clone]
  exact ⟨w, hw, (Node.copies_joinedCopy id k v).rewired hrewired⟩

/-- The inputs of a clone list what they list in the original. -/
theorem peers_clone_incoming (hg : g.Consistent) (id : GraphId) (s : Slot) :
    (g.clone id).val.peers .incoming s = g.peers .incoming s := by
  rw [peers_clone hg, farEnds_inboundLinks]

/-- The outputs of a clone list what they list in the original, perhaps in another order. -/
theorem perm_peers_clone (hg : g.Consistent) (id : GraphId) (s : Slot) :
    ((g.clone id).val.peers .outgoing s).Perm (g.peers .outgoing s) := by
  rw [peers_clone hg]
  exact perm_farEnds_inboundLinks hg .outgoing s

/-- The order is the ascending one. -/
theorem ascending_peers_clone (hg : g.Consistent) (id : GraphId) (s : Slot) :
    Slot.Ascending .incoming ((g.clone id).val.peers .outgoing s) := by
  rw [peers_clone hg]
  exact Slot.ascending_farEnds g.pairwise_inboundLinks s

/-- The outputs of a clone list the same as those of the original if these are in ascending order.
-/
theorem peers_clone_outgoing_eq_iff (hg : g.Consistent) (id : GraphId) (s : Slot) :
    (g.clone id).val.peers .outgoing s = g.peers .outgoing s ↔
      Slot.Ascending .incoming (g.peers .outgoing s) := by
  have hclone := ascending_peers_clone hg id s
  constructor
  · intro h
    rwa [h] at hclone
  · exact fun h => hclone.eq_of_perm h (perm_peers_clone hg id s)

/-- At the same place, a vertex of the clone has the ports of the original where the graphs list the
same opposites. -/
theorem ports_clone_eq_iff {id : GraphId} {k : NodeId} {v w : Node φ ω} (hv : g.find? k = some v)
    (hw : (g.clone id).val.find? k = some w) (hcopies : Node.Copies v w) (d : Direction) :
    Vertex.ports d w = Vertex.ports d v ↔
      ∀ i, (g.clone id).val.peers d ⟨k, i⟩ = g.peers d ⟨k, i⟩ := by
  constructor
  · intro h i
    rw [peers_eq_of_find? hw, peers_eq_of_find? hv]
    exact Vertex.peers_of_ports_eq h i
  · intro h
    refine Vertex.ports_ext (hcopies.offsets d) fun i => ?_
    have hpeers := h i
    rwa [peers_eq_of_find? hw, peers_eq_of_find? hv] at hpeers

/-- The vertices of a clone carry the identifiers of those of a placed graph. -/
theorem binding_clone (hg : g.Placed) {id : GraphId} {k : NodeId} {v w : Node φ ω}
    (hv : g.find? k = some v) (hw : (g.clone id).val.find? k = some w) :
    (w.binding == v.binding) = true := by
  have hmembership : v.binding.membership = some ⟨g.id, k⟩ := hg hv
  have hmembership' : w.binding.membership = some ⟨(g.clone id).val.id, k⟩ := g.placed_clone id hw
  rw [Binding.beq_iff, hmembership, hmembership']
  rfl

/-- A clone equals the original where the outputs of this are in ascending order. -/
theorem beq_clone_iff [BEq ω] [ReflBEq ω] (hg : g.Consistent) (hplaced : g.Placed) (id : GraphId) :
    ((g.clone id).val == g) = true ↔ ∀ s, Slot.Ascending .incoming (g.peers .outgoing s) := by
  rw [beq_iff (g.ids_clone id)]
  constructor
  · intro h s
    cases hv : g.find? s.node with
    | none =>
      rw [peers_eq_nil_of_find? hv]
      exact .nil
    | some v =>
      obtain ⟨w, hw, hcopies⟩ := exists_find?_clone id hv
      obtain ⟨_, hports, _⟩ := Node.beq_iff.mp (h s.node w v hw hv)
      rw [← peers_clone_outgoing_eq_iff hg id]
      exact (ports_clone_eq_iff hv hw hcopies .outgoing).mp (hports .outgoing) s.offset
  · intro h k w v hw hv
    obtain ⟨w', hw', hcopies⟩ := exists_find?_clone id hv
    rw [hw] at hw'
    cases hw'
    refine Node.beq_iff.mpr ⟨?_, ?_, binding_clone hplaced hv hw⟩
    · rw [hcopies.weight_eq]
      exact ReflBEq.rfl
    · intro d
      rw [ports_clone_eq_iff hv hw hcopies]
      intro i
      cases d with
      | incoming => exact peers_clone_incoming hg id _
      | outgoing => exact (peers_clone_outgoing_eq_iff hg id _).mpr (h _)

end Clone

end Graph

/-- Every graph that a run comes to is cloned. -/
theorem Run.cloned {φ : Flavour} {ω : Type} [BEq ω] [ReflBEq ω] {x : Workspace φ (Node φ ω)}
    (hx : Run .start x) {g : Graph (Node φ ω)} (hg : g ∈ x.graphs) :
    Graph.Cloned g (g.clone x.next).val := by
  have hestablished := hx.established g hg
  have hconsistent := hestablished.sound.consistent
  have hbeq := Graph.beq_clone_iff hconsistent hestablished.placed x.next
  refine ⟨?_, ?_, g.ids_clone _, ?_, Graph.perm_peers_clone hconsistent _,
    Graph.ascending_peers_clone hconsistent _, hbeq, ?_⟩
  · rw [g.id_clone]
    rintro heq
    exact Nat.ne_of_gt hestablished.issued (congrArg GraphId.val heq)
  · rw [Graph.val_clone]
    exact (Graph.rewired_connectAll _ _).next_eq
  · intro k v hv
    obtain ⟨w, hw, hcopies⟩ := Graph.exists_find?_clone x.next hv
    refine ⟨w, hw, hcopies, ?_, Graph.binding_clone hestablished.placed hv hw,
      g.placed_clone x.next hw⟩
    exact (Graph.ports_clone_eq_iff hv hw hcopies .incoming).mpr fun i =>
      Graph.peers_clone_incoming hconsistent _ _
  · intro hφ
    refine hbeq.mpr fun s => ?_
    have hlen := g.length_peers_le .outgoing s hφ
    match hpeers : g.peers .outgoing s with
    | [] => exact .nil
    | [_] => exact List.pairwise_singleton _ _
    | _ :: _ :: _ => simp [hpeers] at hlen

/-- A graph of two connected vertices is cloned. -/
theorem Run.cloned_pair :
    ∃ x : Workspace .single (Node .single Unit), Run .start x ∧ ∃ g ∈ x.graphs,
      g.multiplicity ⟨⟨.first, 0⟩, ⟨NodeId.first.next, 0⟩⟩ = 1 ∧
        Graph.Cloned g (g.clone x.next).val := by
  have h₀ := Run.refl (Workspace.start : Workspace .single (Node .single Unit))
  have h₁ := h₀.alter (i := 0) rfl (.insert _ (Node.new () 0 1))
  have h₂ := h₁.alter (i := 0) rfl (.insert _ (Node.new () 1 0))
  have h₃ := h₂.alter (i := 0) rfl (.connect _ .outgoing ⟨.first, 0⟩ ⟨NodeId.first.next, 0⟩)
  exact ⟨_, h₃, _, .head _, by decide, cloned h₃ (.head _)⟩

/-- A vertex whose output was connected to its second input before the first. Its clone lists the
inputs the other way round. -/
theorem Run.clone_ne_of_descending :
    ∃ x : Workspace .multi (Node .multi Unit), Run .start x ∧ ∃ g ∈ x.graphs,
      g.peers .outgoing ⟨.first, 0⟩ = [⟨.first, 1⟩, ⟨.first, 0⟩] ∧
        (g.clone x.next).val.peers .outgoing ⟨.first, 0⟩ = [⟨.first, 0⟩, ⟨.first, 1⟩] ∧
        ¬((g.clone x.next).val == g) = true := by
  have h₀ := Run.refl (Workspace.start : Workspace .multi (Node .multi Unit))
  have h₁ := h₀.alter (i := 0) rfl (.insert _ (Node.new () 2 1))
  have h₂ := h₁.alter (i := 0) rfl (.connect _ .outgoing ⟨.first, 0⟩ ⟨.first, 1⟩)
  have h₃ := h₂.alter (i := 0) rfl (.connect _ .outgoing ⟨.first, 0⟩ ⟨.first, 0⟩)
  exact ⟨_, h₃, _, .head _, by decide, by decide, by decide⟩

end PortGraph
