import Mathlib.Data.List.Induction
import PortGraph.Proofs.Cycles
import PortGraph.Proofs.Runs
import PortGraph.Proofs.Visiting

/-!
# The views upstream and downstream mirror each other

What is upstream of a vertex is read off its inputs alone, and what is downstream of it off its
outputs. In a consistent graph the two views are about the same connections (`Consistent.mirrored`):
of two vertices the one is upstream of the other exactly if the other is downstream of the one. So a
vertex without connected inputs is one that is downstream of none, although the one is read off the
vertex itself and the other off all vertices.

A view lists a vertex where it first occurs among the opposites of the ports (`FirstOccurrences`).
If there are no cycles, a sort cannot begin with a vertex that has others next to it in the
direction of the sort, because one of these would have to come before it
(`Consistent.exists_head_sort`).

A run keeps all graphs consistent, whatever the functions do that it calls, so in all of them the
views mirror each other (`Run.views_mirrored`).
-/

namespace PortGraph

/-! ## First occurrences -/

/-- The elements `firsts` are those of `all`, each once, and in the order in which they occur there
for the first time. -/
structure FirstOccurrences {α : Type} [DecidableEq α] (all firsts : List α) : Prop where
  mem_iff (a : α) : a ∈ firsts ↔ a ∈ all
  ascending : firsts.Pairwise fun a b => all.idxOf a < all.idxOf b

namespace FirstOccurrences

variable {α : Type} [DecidableEq α]

/-- No element is repeated. -/
theorem nodup {all firsts : List α} (h : FirstOccurrences all firsts) : firsts.Nodup := by
  refine h.ascending.imp ?_
  rintro a _ hlt rfl
  exact Nat.lt_irrefl _ hlt

/-- One more element is taken over if it is new. -/
theorem concat {all firsts : List α} (h : FirstOccurrences all firsts) (a : α) :
    FirstOccurrences (all ++ [a]) (if a ∈ all then firsts else firsts ++ [a]) := by
  have hbefore {b : α} (hb : b ∈ firsts) : (all ++ [a]).idxOf b = all.idxOf b :=
    List.idxOf_append_of_mem ((h.mem_iff b).mp hb)
  have hascending : firsts.Pairwise fun b c => (all ++ [a]).idxOf b < (all ++ [a]).idxOf c := by
    refine h.ascending.imp_of_mem fun hb hc hlt => ?_
    rwa [hbefore hb, hbefore hc]
  by_cases ha : a ∈ all
  · rw [if_pos ha]
    refine ⟨fun b => ?_, hascending⟩
    rw [h.mem_iff, List.mem_append, List.mem_singleton]
    exact ⟨.inl, fun hb => hb.elim id fun heq => heq ▸ ha⟩
  · rw [if_neg ha]
    refine ⟨fun b => ?_, List.pairwise_append.mpr ⟨hascending, List.pairwise_singleton _ _, ?_⟩⟩
    · rw [List.mem_append, List.mem_append, h.mem_iff]
    · intro b hb c hc
      rw [List.mem_singleton.mp hc, hbefore hb, List.idxOf_append_of_notMem ha]
      exact Nat.lt_of_lt_of_le (List.idxOf_lt_length_of_mem ((h.mem_iff b).mp hb))
        (Nat.le_add_right _ _)

end FirstOccurrences

/-- Removing repetitions leaves the first occurrences. -/
theorem firstOccurrences_eraseDups {α : Type} [DecidableEq α] (all : List α) :
    FirstOccurrences all all.eraseDups := by
  induction all using List.reverseRecOn with
  | nil => exact ⟨fun _ => Iff.rfl, .nil⟩
  | append_singleton all a ih =>
    have hconcat : (all ++ [a]).eraseDups =
        if a ∈ all then all.eraseDups else all.eraseDups ++ [a] := by
      rw [List.eraseDups_append]
      by_cases ha : a ∈ all <;> simp [List.removeAll, List.eraseDups_cons, ha]
    rw [hconcat]
    exact ih.concat a

namespace Graph

variable {φ : Flavour} {ν : Type} [Vertex φ ν]

/-! ## What a view lists -/

/-- The vertices that the ports of direction `d` of a vertex name as their opposites, in the order
of the ports and of their lists, repeats kept. -/
def named (g : Graph ν) (d : Direction) (id : NodeId) : List NodeId :=
  match g.find? id with
  | some v => (Vertex.contacts d id v).map fun contact => contact.2.node
  | none => []

/-- A vertex is listed where it is first named. -/
theorem firstOccurrences_neighbours (g : Graph ν) (d : Direction) (id : NodeId) :
    FirstOccurrences (g.named d id) (g.neighbours d id) := by
  unfold named neighbours
  cases g.find? id with
  | none => exact firstOccurrences_eraseDups []
  | some v =>
    have hnamed : ((Vertex.contacts d id v).map fun contact => contact.2.node) =
        (Vertex.ports d v).flatMap fun port => port.opposites.map Slot.node := by
      conv_rhs => rw [← List.zipIdx_map_fst 0 (Vertex.ports d v), List.flatMap_map]
      rw [Vertex.contacts, List.map_flatMap]
      simp only [List.map_map]
      rfl
    simp only [hnamed]
    exact firstOccurrences_eraseDups _

/-- A vertex has a connected port if there is a vertex next to it. -/
theorem isConnected_iff {g : Graph ν} {d : Direction} {id : NodeId} :
    g.isConnected d id = true ↔ ∃ u, u ∈ g.neighbours d id := by
  unfold isConnected neighbours
  cases g.find? id with
  | none => simp
  | some v =>
    simp only [Vertex.isConnected, Vertex.neighbours, List.any_eq_true, Port.isConnected_iff,
      List.mem_eraseDups, List.mem_flatMap, List.mem_map]
    constructor
    · rintro ⟨p, hp, hne⟩
      obtain ⟨t, ht⟩ := List.exists_mem_of_ne_nil _ hne
      exact ⟨t.node, p, hp, t, ht, rfl⟩
    · rintro ⟨_, p, hp, t, ht, _⟩
      exact ⟨p, hp, List.ne_nil_of_mem ht⟩

/-! ## Ends -/

/-- The vertices without any connected port of direction `d`. -/
def ends (g : Graph ν) (d : Direction) : List NodeId :=
  g.ids.filter fun id => !g.isConnected d id

/-- An end has no others next to it. -/
theorem mem_ends_iff {g : Graph ν} {d : Direction} {v : NodeId} :
    v ∈ g.ends d ↔ g.contains v = true ∧ ∀ u, u ∉ g.neighbours d v := by
  rw [ends, List.mem_filter, Bool.not_eq_true', ← Bool.not_eq_true, isConnected_iff, not_exists]
  exact and_congr_left' IdMap.mem_keys_iff

namespace Consistent

variable {g : Graph ν}

/-- What is next to a vertex is stored. -/
theorem contains_of_mem_neighbours (hg : g.Consistent) {d : Direction} {u v : NodeId}
    (hu : u ∈ g.neighbours d v) : g.contains u = true :=
  Graph.contains_of_mem_neighbours (hg.mem_neighbours_comm.mp hu)

/-- An end is not next to any stored vertex, seen from there. -/
theorem mem_ends_iff_opposite (hg : g.Consistent) {d : Direction} {v : NodeId} :
    v ∈ g.ends d ↔
      g.contains v = true ∧ ∀ u, g.contains u = true → v ∉ g.neighbours d.opposite u := by
  rw [mem_ends_iff]
  refine and_congr_right fun _ => ⟨fun h u _ hv => ?_, fun h u hu => ?_⟩
  · exact h u (hg.mem_neighbours_comm.mpr hv)
  · exact h u (hg.contains_of_mem_neighbours hu) (hg.mem_neighbours_comm.mp hu)

/-- Where there are vertices but no cycles, a sort begins with an end. -/
theorem exists_head_sort (hg : g.Consistent) {d : Direction} (hne : g.isEmpty = false)
    (hnone : ∀ v, ¬g.OnCycle d v) : ∃ v ∈ g.ends d, (g.sort d).val.head? = some v := by
  have hperm := g.sort_perm d
  have hnodup := hperm.nodup_iff.mpr g.vertices.nodup_keys
  cases hsort : (g.sort d).val with
  | nil =>
    rw [hsort] at hperm
    have hsize : g.size = 0 := by rw [← length_ids, ← hperm.length_eq, List.length_nil]
    rw [isEmpty, hsize] at hne
    cases hne
  | cons v rest =>
    rw [hsort] at hperm hnodup
    have hv : g.contains v = true := IdMap.mem_keys_iff.mp (hperm.subset (.head rest))
    refine ⟨v, mem_ends_iff.mpr ⟨hv, fun u hu => ?_⟩, rfl⟩
    -- what is next to the first vertex would have come before it
    have hlead : ¬Leads (g.neighbours d) u v := fun hway => hnone v (.head' hu hway)
    have hbefore := sublist_sort (hg.contains_of_mem_neighbours hu) hu hlead
    rw [hsort] at hbefore
    have hlt := Search.idxOf_lt_of_sublist hnodup hbefore
    rw [List.idxOf_cons_self] at hlt
    exact Nat.not_lt_zero _ hlt

end Consistent

/-! ## Mirrored views -/

/-- The views of a graph upstream and downstream are views of the same connections. -/
structure Mirrored (g : Graph ν) : Prop where
  mem_upstream_iff (u v : NodeId) : u ∈ g.upstream v ↔ v ∈ g.downstream u
  /-- Either view lists a vertex where the ports first name it, and not again. -/
  firsts_upstream (v : NodeId) : FirstOccurrences (g.named .incoming v) (g.upstream v)
  firsts_downstream (v : NodeId) : FirstOccurrences (g.named .outgoing v) (g.downstream v)
  nodup_upstream (v : NodeId) : (g.upstream v).Nodup
  nodup_downstream (v : NodeId) : (g.downstream v).Nodup
  contains_of_mem_upstream {u v : NodeId} (hu : u ∈ g.upstream v) : g.contains u = true
  contains_of_mem_downstream {u v : NodeId} (hu : u ∈ g.downstream v) : g.contains u = true
  /-- The vertices at the top are those that are downstream of none, those at the bottom are
  upstream of none. -/
  mem_top_iff (v : NodeId) :
    v ∈ g.top ↔ g.contains v = true ∧ ∀ u, g.contains u = true → v ∉ g.downstream u
  mem_bottom_iff (v : NodeId) :
    v ∈ g.bottom ↔ g.contains v = true ∧ ∀ u, g.contains u = true → v ∉ g.upstream u
  /-- Without cycles there is a vertex at either end, namely the first one of the sort from there.
  -/
  exists_head_top (hne : g.isEmpty = false) (hacyclic : g.Acyclic) :
    ∃ v ∈ g.top, g.sortFromUpstream.val.head? = some v
  exists_head_bottom (hne : g.isEmpty = false) (hacyclic : g.Acyclic) :
    ∃ v ∈ g.bottom, g.sortFromDownstream.val.head? = some v

/-- In a consistent graph the views mirror each other. -/
theorem Consistent.mirrored {g : Graph ν} (hg : g.Consistent) : g.Mirrored where
  mem_upstream_iff _ _ := hg.mem_neighbours_comm
  firsts_upstream := g.firstOccurrences_neighbours .incoming
  firsts_downstream := g.firstOccurrences_neighbours .outgoing
  nodup_upstream v := (g.firstOccurrences_neighbours .incoming v).nodup
  nodup_downstream v := (g.firstOccurrences_neighbours .outgoing v).nodup
  contains_of_mem_upstream hu := hg.contains_of_mem_neighbours hu
  contains_of_mem_downstream hu := hg.contains_of_mem_neighbours hu
  mem_top_iff _ := hg.mem_ends_iff_opposite (d := .incoming)
  mem_bottom_iff _ := hg.mem_ends_iff_opposite (d := .outgoing)
  exists_head_top hne hacyclic :=
    hg.exists_head_sort hne fun v hcycle => hacyclic v (hg.onCycle_opposite hcycle)
  exists_head_bottom hne hacyclic := hg.exists_head_sort hne hacyclic

end Graph

/-! ## Runs -/

namespace Run

open PortGraph.Graph

/-- In a run of graphs of weighted vertices that begins with empty graphs, the views of every graph
mirror each other after every step. -/
theorem views_mirrored {φ : Flavour} {ω : Type} {w x : Workspace φ (Node φ ω)} (hwx : Run w x)
    (hw : ∀ g ∈ w.graphs, g.vertices = .empty) : ∀ g ∈ x.graphs, g.Mirrored := by
  intro g hg
  have hsound : w.Sound := fun h hh => .of_vertices_eq_empty (hw h hh)
  exact (hwx.sound hsound g hg).consistent.mirrored

/-- The first vertex is connected to the second, the second to the third, and the first twice to the
third. Then the second loses its inputs in a revision. The third lists the second before the first,
and both of them are at the top. -/
theorem views_mirrored_pared :
    let a := NodeId.first
    let b := a.next
    let c := b.next
    ∃ x : Workspace .multi (Node .multi Unit), Run .start x ∧
      (∀ g ∈ (Workspace.start : Workspace .multi (Node .multi Unit)).graphs, g.vertices = .empty) ∧
      (∀ g ∈ x.graphs, g.Mirrored) ∧
      (∀ g ∈ x.graphs, g.isEmpty = false ∧ g.Acyclic ∧
        (∃ v ∈ g.top, g.sortFromUpstream.val.head? = some v) ∧
        ∃ v ∈ g.bottom, g.sortFromDownstream.val.head? = some v) ∧
      x.graphs.map (·.named .incoming c) = [[b, a, a]] ∧ x.graphs.map (·.upstream c) = [[b, a]] ∧
      x.graphs.map (·.downstream a) = [[c]] ∧ x.graphs.map (·.downstream b) = [[c]] ∧
      x.graphs.map (·.top) = [[a, b]] ∧ x.graphs.map (·.bottom) = [[c]] := by
  intro a b c
  have hempty : ∀ g ∈ (Workspace.start : Workspace .multi (Node .multi Unit)).graphs,
      g.vertices = .empty := by
    intro g hg
    rw [List.mem_singleton.mp hg]
    rfl
  have hrefl := Run.refl (Workspace.start : Workspace .multi (Node .multi Unit))
  have ha := hrefl.alter (i := 0) rfl (.insert _ (Node.new () 0 1))
  have hb := ha.alter (i := 0) rfl (.insert _ (Node.new () 1 1))
  have hc := hb.alter (i := 0) rfl (.insert _ (Node.new () 1 0))
  have hab := hc.alter (i := 0) rfl (.connect _ .outgoing ⟨a, 0⟩ ⟨b, 0⟩)
  have hbc := hab.alter (i := 0) rfl (.connect _ .outgoing ⟨b, 0⟩ ⟨c, 0⟩)
  have hac := hbc.alter (i := 0) rfl (.connect _ .outgoing ⟨a, 0⟩ ⟨c, 0⟩)
  have hacc := hac.alter (i := 0) rfl (.connect _ .outgoing ⟨a, 0⟩ ⟨c, 0⟩)
  have hpared := hacc.modify (i := 0) (f := fun v => pure ({ v with inputs := [] }, _)) rfl b
    fun _ => .refl _
  have hmirrored := views_mirrored hpared hempty
  refine ⟨_, hpared, hempty, hmirrored, fun g hg => ?_, by decide +kernel, by decide +kernel,
    by decide +kernel, by decide +kernel, by decide +kernel, by decide +kernel⟩
  have hne : g.isEmpty = false := by
    revert g
    decide +kernel
  have hacyclic : g.Acyclic := by
    refine acyclic_of_ascending ?_
    revert g
    decide +kernel
  exact ⟨hne, hacyclic, (hmirrored g hg).exists_head_top hne hacyclic,
    (hmirrored g hg).exists_head_bottom hne hacyclic⟩

end Run

end PortGraph
