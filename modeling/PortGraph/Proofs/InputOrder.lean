import PortGraph.Proofs.Copying

/-!
# Links in the order of the inputs

A copy of a graph has its connections made in the order of the inputs: by vertex, by port, and for
each port in the order of its list. This is the stable order of links by their inputs (`byInput`). A
list of links is determined by being in order and by the far ends that it has at each input
(`eq_of_pairwise_of_farEnds`), so the links of the inputs of a graph are, in this order, those of
any list that accounts for what the inputs list (`inboundLinks_eq_byInput`).
-/

namespace PortGraph

namespace Link

/-! ## The order -/

/-- The input of `l` does not come after the input of `m`: it is at an earlier vertex, or at the
same vertex and not at a later position. -/
def inputLE (l m : Link) : Bool :=
  l.input.node < m.input.node ||
    (l.input.node = m.input.node && l.input.offset ≤ m.input.offset)

theorem inputLE_iff {l m : Link} :
    inputLE l m = true ↔ l.input.node.val < m.input.node.val ∨
      l.input.node.val = m.input.node.val ∧ l.input.offset ≤ m.input.offset := by
  have hnode : l.input.node = m.input.node ↔ l.input.node.val = m.input.node.val :=
    ⟨congrArg NodeId.val, NodeId.ext⟩
  unfold inputLE
  rw [Bool.or_eq_true, Bool.and_eq_true, decide_eq_true_iff, decide_eq_true_iff, decide_eq_true_iff,
    NodeId.lt_def, hnode]

theorem inputLE_trans (l m n : Link) (hlm : inputLE l m = true) (hmn : inputLE m n = true) :
    inputLE l n = true := by
  rw [inputLE_iff] at hlm hmn ⊢
  omega

theorem inputLE_total (l m : Link) : (inputLE l m || inputLE m l) = true := by
  rw [Bool.or_eq_true, inputLE_iff, inputLE_iff]
  omega

/-- Links that do not come after each other have the same input. -/
theorem input_eq_of_inputLE {l m : Link} (hlm : inputLE l m = true) (hml : inputLE m l = true) :
    l.input = m.input := by
  rw [inputLE_iff] at hlm hml
  have hnode : l.input.node = m.input.node := NodeId.ext (by omega)
  have hoffset : l.input.offset = m.input.offset := by omega
  calc l.input = ⟨l.input.node, l.input.offset⟩ := rfl
    _ = ⟨m.input.node, m.input.offset⟩ := by rw [hnode, hoffset]
    _ = m.input := rfl

/-- The links by vertex and position of their inputs; those with the same input stay in order. -/
def byInput (ls : List Link) : List Link := ls.mergeSort inputLE

theorem pairwise_byInput (ls : List Link) : (byInput ls).Pairwise fun l m => inputLE l m = true :=
  List.pairwise_mergeSort inputLE_trans inputLE_total ls

/-- Ordering links does not change the order of those at one input. -/
theorem filter_byInput (s : Slot) (ls : List Link) :
    (byInput ls).filter (fun l => l.input = s) = ls.filter fun l => l.input = s := by
  have hpairwise : (ls.filter fun l => l.input = s).Pairwise fun l m => inputLE l m = true := by
    apply List.pairwise_of_forall_mem_list
    intro l hl m hm
    have hls : l.input = s := of_decide_eq_true (List.mem_filter.mp hl).2
    have hms : m.input = s := of_decide_eq_true (List.mem_filter.mp hm).2
    rw [inputLE_iff, hls, hms]
    omega
  have hsub : (ls.filter fun l => l.input = s).Sublist (byInput ls) :=
    List.sublist_mergeSort inputLE_trans inputLE_total hpairwise List.filter_sublist
  have hself : (ls.filter fun l => l.input = s).filter (fun l => l.input = s) =
      ls.filter fun l => l.input = s := by
    rw [List.filter_filter]
    simp only [Bool.and_self]
  have hsub' := hsub.filter fun l => decide (l.input = s)
  rw [hself] at hsub'
  have hperm : ((byInput ls).filter fun l => l.input = s).Perm (ls.filter fun l => l.input = s) :=
    (List.mergeSort_perm ls inputLE).filter _
  exact (hsub'.eq_of_length hperm.length_eq.symm).symm

/-- Ordering links does not change the far ends at an input. -/
theorem farEnds_byInput (s : Slot) (ls : List Link) :
    farEnds .incoming s (byInput ls) = farEnds .incoming s ls := by
  unfold farEnds
  have hfilter := filter_byInput s ls
  exact congrArg (List.map _) hfilter

/-- A list of links in order is determined by the far ends at each input. -/
theorem eq_of_pairwise_of_farEnds {ls ms : List Link}
    (hls : ls.Pairwise fun l m => inputLE l m = true)
    (hms : ms.Pairwise fun l m => inputLE l m = true)
    (h : ∀ s, farEnds .incoming s ls = farEnds .incoming s ms) : ls = ms := by
  -- an input with a far end in one list has one in the other
  have hmem {ls ms : List Link} (h : ∀ s, farEnds .incoming s ls = farEnds .incoming s ms)
      {l : Link} (hl : l ∈ ls) : l ∈ ms := by
    have hfar : l.output ∈ farEnds .incoming l.input ls := mem_farEnds.mpr hl
    rw [h] at hfar
    exact mem_farEnds.mp hfar
  induction ls generalizing ms with
  | nil =>
    cases ms with
    | nil => rfl
    | cons m ms => exact absurd (hmem (fun s => (h s).symm) (.head ms)) List.not_mem_nil
  | cons l ls ih =>
    cases ms with
    | nil => exact absurd (hmem h (.head ls)) List.not_mem_nil
    | cons m ms =>
      obtain ⟨hl, hls'⟩ := List.pairwise_cons.mp hls
      obtain ⟨hm, hms'⟩ := List.pairwise_cons.mp hms
      have hrefl (n : Link) : inputLE n n = true := by
        rw [inputLE_iff]
        omega
      -- the first link of either list occurs in the other, so neither input is before the other
      have hlm : inputLE l m = true := by
        rcases List.mem_cons.mp (hmem (fun s => (h s).symm) (.head ms)) with heq | hin
        · exact heq ▸ hrefl m
        · exact hl m hin
      have hml : inputLE m l = true := by
        rcases List.mem_cons.mp (hmem h (.head ls)) with heq | hin
        · exact heq ▸ hrefl l
        · exact hm l hin
      have hinput : l.side .incoming = m.side .incoming := input_eq_of_inputLE hlm hml
      have hfirst := h (m.side .incoming)
      rw [farEnds_cons, farEnds_cons, if_pos hinput, if_pos rfl] at hfirst
      obtain ⟨houtput, _⟩ := List.cons.inj hfirst
      have heq : l = m := ext_side .incoming hinput houtput
      subst heq
      have hrest (s : Slot) : farEnds .incoming s ls = farEnds .incoming s ms := by
        have hs := h s
        rw [farEnds_cons, farEnds_cons] at hs
        by_cases hside : l.side .incoming = s
        · rw [if_pos hside, if_pos hside] at hs
          exact (List.cons.inj hs).2
        · rw [if_neg hside, if_neg hside] at hs
          exact hs
      rw [ih hls' hms' hrest]

end Link

/-! ## The links of the inputs of a graph -/

namespace Vertex

variable {φ : Flavour} {ν : Type} [Vertex φ ν]

/-- The links of the inputs of a vertex are in order. -/
theorem pairwise_links (id : NodeId) (v : ν) :
    (links .incoming id v).Pairwise fun l m => Link.inputLE l m = true := by
  have hpositions : (ports .incoming v).zipIdx.Pairwise fun c c' => c.2 < c'.2 := by
    have hsnd : ((ports .incoming v).zipIdx.map Prod.snd).Pairwise (· < ·) := by
      rw [List.zipIdx_map_snd]
      exact List.pairwise_lt_range'
    exact List.pairwise_map.mp hsnd
  unfold links contacts
  rw [List.pairwise_map, List.pairwise_flatMap]
  constructor
  · intro c _
    apply List.pairwise_of_forall_mem_list
    intro x hx y hy
    obtain ⟨s, _, rfl⟩ := List.mem_map.mp hx
    obtain ⟨t, _, rfl⟩ := List.mem_map.mp hy
    rw [Link.inputLE_iff]
    exact .inr ⟨rfl, Nat.le_refl _⟩
  · refine hpositions.imp fun hlt x hx y hy => ?_
    obtain ⟨s, _, rfl⟩ := List.mem_map.mp hx
    obtain ⟨t, _, rfl⟩ := List.mem_map.mp hy
    rw [Link.inputLE_iff]
    exact .inr ⟨rfl, Nat.le_of_lt hlt⟩

/-- The inputs of the links of the inputs of a vertex are at the vertex. -/
theorem input_node_of_mem_links {id : NodeId} {v : ν} {l : Link} (hl : l ∈ links .incoming id v) :
    l.input.node = id := by
  obtain ⟨c, hc, rfl⟩ := List.mem_map.mp hl
  obtain ⟨p, _, hp⟩ := List.mem_flatMap.mp hc
  obtain ⟨t, _, rfl⟩ := List.mem_map.mp hp
  rfl

end Vertex

namespace Graph

variable {φ : Flavour} {ν : Type} [Vertex φ ν]

/-- The links of the inputs of a graph are in order. -/
theorem pairwise_inboundLinks (g : Graph ν) :
    g.inboundLinks.Pairwise fun l m => Link.inputLE l m = true := by
  unfold inboundLinks
  rw [List.pairwise_flatMap]
  constructor
  · intro e _
    exact Vertex.pairwise_links e.1 e.2
  · refine g.vertices.ascending.imp fun hlt l hl m hm => ?_
    rw [Link.inputLE_iff, Vertex.input_node_of_mem_links hl, Vertex.input_node_of_mem_links hm]
    exact .inl hlt

/-- If a list of links accounts for what the inputs of a graph list, then ordering it gives the
links of the inputs. -/
theorem inboundLinks_eq_byInput {g : Graph ν} {ls : List Link}
    (h : ∀ s, g.peers .incoming s = Link.farEnds .incoming s ls) :
    g.inboundLinks = Link.byInput ls := by
  refine Link.eq_of_pairwise_of_farEnds g.pairwise_inboundLinks (Link.pairwise_byInput ls)
    fun s => ?_
  rw [farEnds_inboundLinks, Link.farEnds_byInput, h]

end Graph

end PortGraph
