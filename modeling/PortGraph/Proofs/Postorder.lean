import PortGraph.Proofs.Sorting

/-!
# The recursive traversal behind a sort

A depth-first traversal is most plainly told as a recursion (`Traversal.visit`): a vertex that was
not visited is marked, the vertices next to it are visited in turn, and then it is emitted. Whether
a vertex is marked is asked right before it is visited. A search asks when it pushes the frames of
all vertices next to one just entered, and once more when a frame comes off the stack.

That both come to the same order (`sort_eq_postorder`) is a simulation: from a stack that begins
with the entries of some vertices a search gets, by way of the states in between, to the rest of the
stack with what the recursion makes of these vertices (`run_pending`). The recursion may visit
vertices that the search did not push, because they were marked already when it pushed the others;
marks are only added, so they are passed over.
-/

namespace PortGraph

/-! ## The recursion -/

/-- What a recursive traversal has done. -/
structure Traversal where
  /-- Vertices that were visited, the last one first. -/
  marked : List NodeId
  /-- Vertices whose visit has ended, in this order. -/
  emitted : List NodeId

namespace Traversal

/-- Nothing is done yet. -/
def empty : Traversal := ⟨[], []⟩

/-- Begins the visit of a vertex. -/
def mark (id : NodeId) (t : Traversal) : Traversal := { t with marked := id :: t.marked }

/-- Ends the visit of a vertex. -/
def emit (id : NodeId) (t : Traversal) : Traversal := { t with emitted := t.emitted ++ [id] }

/-- The stored vertices that were not visited. -/
def unmarked (stored : List NodeId) (t : Traversal) : List NodeId :=
  stored.filter fun id => !t.marked.contains id

theorem mem_unmarked {stored : List NodeId} {t : Traversal} {id : NodeId} :
    id ∈ t.unmarked stored ↔ id ∈ stored ∧ id ∉ t.marked := by
  simp [unmarked]

/-- Marks that are added leave fewer vertices. -/
theorem unmarked_subset (stored : List NodeId) {t u : Traversal} (h : t.marked ⊆ u.marked) :
    u.unmarked stored ⊆ t.unmarked stored := by
  intro id hid
  obtain ⟨hstored, hmarked⟩ := mem_unmarked.mp hid
  exact mem_unmarked.mpr ⟨hstored, fun hmem => hmarked (h hmem)⟩

theorem length_unmarked_le (stored : List NodeId) {t u : Traversal} (h : t.marked ⊆ u.marked) :
    (u.unmarked stored).length ≤ (t.unmarked stored).length := by
  refine (List.monotone_filter_right stored fun id hid => ?_).length_le
  simp only [Bool.not_eq_true', List.contains_eq_mem, decide_eq_false_iff_not] at hid ⊢
  exact fun hmem => hid (h hmem)

/-- Marking one of them leaves fewer. -/
theorem length_unmarked_mark_lt {stored : List NodeId} {t : Traversal} {id : NodeId}
    (hid : id ∈ t.unmarked stored) :
    ((t.mark id).unmarked stored).length < (t.unmarked stored).length := by
  have hsub : ((t.mark id).unmarked stored).Sublist (t.unmarked stored) := by
    refine List.monotone_filter_right stored fun k hk => ?_
    simp only [mark, Bool.not_eq_true', List.contains_eq_mem, decide_eq_false_iff_not] at hk ⊢
    exact fun hmem => hk (.tail _ hmem)
  refine Nat.lt_of_le_of_ne hsub.length_le fun heq => ?_
  rw [← hsub.eq_of_length heq] at hid
  exact (mem_unmarked.mp hid).2 (.head _)

mutual

/-- Visits a vertex that is stored and was not visited: marks it, visits the vertices next to it and
emits it. Marks are only added. -/
def visit (stored : List NodeId) (next : NodeId → List NodeId) (id : NodeId) (t : Traversal) :
    { u : Traversal // t.marked ⊆ u.marked } :=
  if _ : id ∈ t.unmarked stored then
    let u := visitEach stored next (next id) (t.mark id)
    ⟨u.val.emit id, fun _ hk => u.property (.tail _ hk)⟩
  else ⟨t, fun _ hk => hk⟩
termination_by ((t.unmarked stored).length, 0)
decreasing_by
  next hid => exact Prod.Lex.left _ _ (length_unmarked_mark_lt hid)

/-- Visits the listed vertices in turn. -/
def visitEach (stored : List NodeId) (next : NodeId → List NodeId) (ids : List NodeId)
    (t : Traversal) : { u : Traversal // t.marked ⊆ u.marked } :=
  match ids with
  | [] => ⟨t, fun _ hk => hk⟩
  | id :: rest =>
    let u := visit stored next id t
    let v := visitEach stored next rest u.val
    ⟨v.val, fun _ hk => v.property (u.property hk)⟩
termination_by ((t.unmarked stored).length, ids.length + 1)
decreasing_by
  · exact Prod.Lex.right _ (Nat.succ_pos _)
  · rcases Nat.lt_or_eq_of_le (length_unmarked_le stored u.property) with hlt | heq
    · exact Prod.Lex.left _ _ hlt
    · rw [heq]
      exact Prod.Lex.right _ (Nat.lt_succ_self _)

end

variable {stored : List NodeId} {next : NodeId → List NodeId}

theorem val_visit_of_mem {id : NodeId} {t : Traversal} (h : id ∈ t.unmarked stored) :
    (visit stored next id t).val = (visitEach stored next (next id) (t.mark id)).val.emit id := by
  rw [visit, dif_pos h]

theorem val_visit_of_not_mem {id : NodeId} {t : Traversal} (h : id ∉ t.unmarked stored) :
    (visit stored next id t).val = t := by
  rw [visit, dif_neg h]

theorem val_visitEach_nil (t : Traversal) : (visitEach stored next [] t).val = t := by
  rw [visitEach]

theorem val_visitEach_cons (id : NodeId) (rest : List NodeId) (t : Traversal) :
    (visitEach stored next (id :: rest) t).val =
      (visitEach stored next rest (visit stored next id t).val).val := by
  rw [visitEach]

/-- A vertex that is marked does not wait any longer. -/
theorem unmarked_mark (hstored : stored.Nodup) (id : NodeId) (t : Traversal) :
    (t.mark id).unmarked stored = (t.unmarked stored).erase id := by
  have hnodup : (t.unmarked stored).Nodup := hstored.sublist List.filter_sublist
  rw [hnodup.erase_eq_filter, unmarked, unmarked, List.filter_filter]
  refine List.filter_congr fun k _ => ?_
  rw [mark, List.contains_cons, Bool.not_or]
  rfl

/-! ## The simulation -/

/-- The search that has done what a traversal has done, with a stack of what is left to do. -/
def toSearch (stored : List NodeId) (t : Traversal) (stack : List Frame) (cycle : Option NodeId) :
    Search :=
  ⟨stack, t.unmarked stored, t.emitted, cycle⟩

mutual

/-- A search deals with the entry of a vertex as the recursion does with its visit. -/
theorem run_enter (hstored : stored.Nodup) (id : NodeId) (t : Traversal) (stack : List Frame)
    (cycle : Option NodeId) :
    ∃ cycle', Search.run stored next (t.toSearch stored (.enter id :: stack) cycle) =
      Search.run stored next ((visit stored next id t).val.toSearch stored stack cycle') := by
  by_cases hid : id ∈ t.unmarked stored
  · obtain ⟨cycle', hpending⟩ := run_pending hstored (next id) (t.mark id)
      (List.Subset.refl ((t.mark id).unmarked stored)) (.exit id :: stack)
      (cycle <|> (Search.revisited stored ((t.mark id).unmarked stored) t.emitted
        (next id)).getLast?)
    refine ⟨cycle', ?_⟩
    rw [toSearch, Search.run, if_pos hid, val_visit_of_mem hid, ← unmarked_mark hstored]
    refine hpending.trans ?_
    rw [toSearch, Search.run]
    rfl
  · refine ⟨cycle, ?_⟩
    rw [toSearch, Search.run, if_neg hid, val_visit_of_not_mem hid]
    rfl
termination_by ((t.unmarked stored).length, 0)
decreasing_by exact Prod.Lex.left _ _ (length_unmarked_mark_lt hid)

/-- A search deals with the frames pushed for some vertices as the recursion does with visiting them
in turn. Those that did not wait when the frames were pushed do not wait later. -/
theorem run_pending (hstored : stored.Nodup) (ids : List NodeId) (t : Traversal)
    {waiting : List NodeId} (hwaiting : t.unmarked stored ⊆ waiting) (stack : List Frame)
    (cycle : Option NodeId) :
    ∃ cycle', Search.run stored next
        (t.toSearch stored (Search.pending waiting ids ++ stack) cycle) =
      Search.run stored next ((visitEach stored next ids t).val.toSearch stored stack cycle') := by
  match ids with
  | [] =>
    rw [val_visitEach_nil]
    exact ⟨cycle, rfl⟩
  | id :: rest =>
    have hproperty := (visit stored next id t).property
    have hsubset := unmarked_subset stored hproperty
    rw [val_visitEach_cons]
    by_cases hid : id ∈ waiting
    · have hpush :
          Search.pending waiting (id :: rest) = .enter id :: Search.pending waiting rest := by
        simp [Search.pending, hid]
      obtain ⟨cycle', henter⟩ := run_enter hstored id t (Search.pending waiting rest ++ stack) cycle
      obtain ⟨cycle'', hrest⟩ := run_pending hstored rest (visit stored next id t).val
        (fun k hk => hwaiting (hsubset hk)) stack cycle'
      rw [hpush]
      exact ⟨cycle'', henter.trans hrest⟩
    · have hpush : Search.pending waiting (id :: rest) = Search.pending waiting rest := by
        simp [Search.pending, hid]
      rw [hpush, val_visit_of_not_mem fun h => hid (hwaiting h)]
      exact run_pending hstored rest t hwaiting stack cycle
termination_by ((t.unmarked stored).length, ids.length + 1)
decreasing_by
  · exact Prod.Lex.right _ (Nat.succ_pos _)
  · rcases Nat.lt_or_eq_of_le (length_unmarked_le stored hproperty) with hlt | heq
    · exact Prod.Lex.left _ _ hlt
    · rw [heq]
      exact Prod.Lex.right _ (Nat.lt_succ_self _)
  · exact Prod.Lex.right _ (Nat.lt_succ_self _)

end

/-- From the beginning, a search leaves the vertices in the order in which the recursion emits
them. -/
theorem order_run_eq (hstored : stored.Nodup) (next : NodeId → List NodeId) :
    (Search.run stored next (Search.start stored)).order =
      (visitEach stored next stored empty).val.emitted := by
  have hall : empty.unmarked stored = stored := List.filter_eq_self.mpr fun _ _ => rfl
  have hpush : Search.pending stored stored ++ [] = stored.map .enter := by
    rw [List.append_nil, Search.pending,
      List.filter_eq_self.mpr fun _ hid => List.contains_iff_mem.mpr hid]
  have hwaiting : empty.unmarked stored ⊆ stored := fun _ hid => hall ▸ hid
  obtain ⟨cycle, hrun⟩ := @run_pending stored next hstored stored empty stored hwaiting [] none
  have hstart : empty.toSearch stored (Search.pending stored stored ++ []) none =
      Search.start stored := by
    rw [toSearch, hall, hpush]
    rfl
  rw [← hstart, hrun, toSearch, Search.run]

end Traversal

/-! ## The order of a sort -/

namespace Graph

variable {φ : Flavour} {ν : Type} [Vertex φ ν]

/-- The vertices in the order in which the recursive traversal in direction `d` emits them, when it
visits all of them in ascending order. -/
def postorder (g : Graph ν) (d : Direction) : List NodeId :=
  (Traversal.visitEach g.ids (g.neighbours d) g.ids .empty).val.emitted

/-- On every graph, with or without cycles, a sort emits the vertices in the order of the recursive
traversal. -/
theorem sort_eq_postorder (g : Graph ν) (d : Direction) : (g.sort d).val = g.postorder d := by
  rw [val_sort]
  exact Traversal.order_run_eq g.vertices.nodup_keys _

end Graph

end PortGraph
