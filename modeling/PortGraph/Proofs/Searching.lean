import Mathlib.Logic.Relation
import PortGraph.Graph.Search

/-!
# The order in which a search leaves vertices

A search goes on in turns (`Turn`), each of which deals with the first frame of the stack. What
every turn preserves holds at the end, when the stack is empty (`run_invariant`).

A search enters every vertex once and leaves it once. Between the two the vertex is *active*: its
exit is on the stack. From an active vertex a way leads to every frame above its exit, because
frames are only pushed for the vertices next to one just entered.

Take a vertex `u` next to a vertex `v`. When `v` is entered, `u` either was left before, or waits
and is pushed above the exit of `v`, or is active. In the first two cases `u` is left before `v`
(`Ahead`). In the last case a way leads from `u` to `v`. So where there is no such way, `u` is left
before `v`, also if there are cycles elsewhere.
-/

namespace PortGraph

/-- Some number of steps along `next` lead from `u` to `v`. -/
def Leads (next : NodeId → List NodeId) (u v : NodeId) : Prop :=
  Relation.ReflTransGen (fun a b => b ∈ next a) u v

/-- The vertex that a frame is about. -/
def Frame.node : Frame → NodeId
  | enter id => id
  | exit id => id

namespace Search

variable {stored : List NodeId} {next : NodeId → List NodeId}

/-! ## Turns -/

/-- One turn of a search. -/
inductive Turn (stored : List NodeId) (next : NodeId → List NodeId) : Search → Search → Prop
  /-- A vertex is left. -/
  | leave {id : NodeId} {stack : List Frame} {waiting order : List NodeId} {cycle : Option NodeId} :
    Turn stored next ⟨.exit id :: stack, waiting, order, cycle⟩
      ⟨stack, waiting, order ++ [id], cycle⟩
  /-- A vertex that was entered in the meantime is passed over. -/
  | skip {id : NodeId} {stack : List Frame} {waiting order : List NodeId} {cycle : Option NodeId}
    (hid : id ∉ waiting) :
    Turn stored next ⟨.enter id :: stack, waiting, order, cycle⟩ ⟨stack, waiting, order, cycle⟩
  /-- A vertex that waits is entered. -/
  | enter {id : NodeId} {stack : List Frame} {waiting order : List NodeId} {cycle : Option NodeId}
    (hid : id ∈ waiting) :
    Turn stored next ⟨.enter id :: stack, waiting, order, cycle⟩
      ⟨pending (waiting.erase id) (next id) ++ .exit id :: stack, waiting.erase id, order,
        cycle <|> (revisited stored (waiting.erase id) order (next id)).getLast?⟩

/-- What every turn preserves holds at the end of a search, when the stack is empty. -/
theorem run_invariant {P : Search → Prop} (hP : ∀ s t, Turn stored next s t → P s → P t)
    {s : Search} (hs : P s) : P (run stored next s) ∧ (run stored next s).stack = [] := by
  induction s using run.induct stored next with
  | case1 waiting order cycle =>
    rw [run]
    exact ⟨hs, rfl⟩
  | case2 id stack waiting order cycle ih =>
    rw [run]
    exact ih (hP _ _ .leave hs)
  | case3 id stack waiting order cycle hid others ih =>
    rw [run, if_pos hid]
    exact ih (hP _ _ (.enter hid) hs)
  | case4 id stack waiting order cycle hid ih =>
    rw [run, if_neg hid]
    exact ih (hP _ _ (.skip hid) hs)

/-! ## Active vertices -/

/-- The vertices that were entered and not left, the last one first. -/
def active (stack : List Frame) : List NodeId :=
  stack.filterMap fun
    | .enter _ => none
    | .exit id => some id

/-- A vertex is active if its exit is on the stack. -/
theorem mem_active {stack : List Frame} {id : NodeId} :
    id ∈ active stack ↔ .exit id ∈ stack := by
  unfold active
  rw [List.mem_filterMap]
  constructor
  · rintro ⟨f, hf, hid⟩
    cases f with
    | enter k => cases hid
    | exit k =>
      cases hid
      exact hf
  · intro h
    exact ⟨.exit id, h, rfl⟩

/-- Frames that are pushed for waiting vertices. -/
theorem mem_pending {waiting ids : List NodeId} {f : Frame} :
    f ∈ pending waiting ids ↔ ∃ u ∈ ids, u ∈ waiting ∧ f = .enter u := by
  simp only [pending, List.mem_map, List.mem_filter, List.contains_iff_mem]
  constructor
  · rintro ⟨u, ⟨hu, hw⟩, rfl⟩
    exact ⟨u, hu, hw, rfl⟩
  · rintro ⟨u, hu, hw, rfl⟩
    exact ⟨u, ⟨hu, hw⟩, rfl⟩

/-- A list of entries makes no vertex active. -/
theorem active_map_enter (ids : List NodeId) (stack : List Frame) :
    active (ids.map .enter ++ stack) = active stack := by
  induction ids with
  | nil => rfl
  | cons id rest ih => exact ih

/-- Where an exit stands on a stack onto which frames and another exit were pushed. -/
theorem split_of_append_exit {pushed above below stack : List Frame} {id v : NodeId}
    (hpushed : .exit v ∉ pushed) (h : pushed ++ .exit id :: stack = above ++ .exit v :: below) :
    (v = id ∧ above = pushed) ∨
      ∃ rest, above = pushed ++ .exit id :: rest ∧ stack = rest ++ .exit v :: below := by
  rcases List.append_eq_append_iff.mp h with ⟨rest, habove, hrest⟩ | ⟨rest, hsplit, hrest⟩
  · cases rest with
    | nil =>
      cases hrest
      exact .inl ⟨rfl, by rw [habove, List.append_nil]⟩
    | cons f rest =>
      cases hrest
      exact .inr ⟨rest, habove, rfl⟩
  · cases rest with
    | nil =>
      cases hrest
      exact .inl ⟨rfl, by rw [hsplit, List.append_nil]⟩
    | cons f rest =>
      cases hrest
      refine absurd ?_ hpushed
      rw [hsplit]
      exact List.mem_append_right _ (.head _)

/-! ## What is ahead of an exit -/

/-- A vertex is left after those next to it, except for those that `back` tells of it. -/
structure Ahead (stored : List NodeId) (next : NodeId → List NodeId)
    (back : NodeId → NodeId → Prop) (s : Search) : Prop where
  /-- Before an active vertex is left, those next to it are left. -/
  pushed : ∀ above v below, s.stack = above ++ .exit v :: below →
    ∀ u ∈ stored, u ∈ next v → ¬back u v →
      u ∈ s.order ∨ .exit u ∈ above ∨ u ∈ s.waiting ∧ .enter u ∈ above
  /-- So it was with every vertex that was left. -/
  sorted : ∀ v ∈ s.order, ∀ u ∈ stored, u ∈ next v → ¬back u v → [u, v].Sublist s.order

namespace Ahead

variable {back : NodeId → NodeId → Prop} {id : NodeId} {stack : List Frame}
  {waiting order : List NodeId} {cycle : Option NodeId}

/-- Leaving a vertex. -/
theorem leave (h : Ahead stored next back ⟨.exit id :: stack, waiting, order, cycle⟩) :
    Ahead stored next back ⟨stack, waiting, order ++ [id], cycle⟩ where
  pushed above v below hstack u hu hnext hback := by
    have hold := h.pushed (.exit id :: above) v below (congrArg (Frame.exit id :: ·) hstack) u hu
      hnext hback
    rcases hold with hleft | hactive | ⟨hwait, henter⟩
    · exact .inl (List.mem_append_left [id] hleft)
    · rcases List.mem_cons.mp hactive with heq | habove
      · cases heq
        exact .inl (List.mem_append_right order (List.mem_singleton.mpr rfl))
      · exact .inr (.inl habove)
    · rcases List.mem_cons.mp henter with heq | habove
      · cases heq
      · exact .inr (.inr ⟨hwait, habove⟩)
  sorted v hv u hu hnext hback := by
    rcases List.mem_append.mp hv with hv | hv
    · exact (h.sorted v hv u hu hnext hback).trans (List.sublist_append_left order [id])
    · -- nothing is above the exit any more
      rw [List.mem_singleton.mp hv] at hnext hback ⊢
      have hleft : u ∈ order := by
        rcases h.pushed [] id stack rfl u hu hnext hback with hleft | hactive | ⟨_, henter⟩
        · exact hleft
        · cases hactive
        · cases henter
      exact (List.singleton_sublist.mpr hleft).append (List.Sublist.refl [id])

/-- Passing over a vertex that was entered in the meantime. -/
theorem skip (h : Ahead stored next back ⟨.enter id :: stack, waiting, order, cycle⟩)
    (hid : id ∉ waiting) : Ahead stored next back ⟨stack, waiting, order, cycle⟩ where
  pushed above v below hstack u hu hnext hback := by
    have hold := h.pushed (.enter id :: above) v below (congrArg (Frame.enter id :: ·) hstack) u hu
      hnext hback
    rcases hold with hleft | hactive | ⟨hwait, henter⟩
    · exact .inl hleft
    · rcases List.mem_cons.mp hactive with heq | habove
      · cases heq
      · exact .inr (.inl habove)
    · rcases List.mem_cons.mp henter with heq | habove
      · cases heq
        exact absurd hwait hid
      · exact .inr (.inr ⟨hwait, habove⟩)
  sorted := h.sorted

/-- What was ahead of a vertex further down still is; the vertex that is entered becomes active. -/
theorem pushed_of_below (h : Ahead stored next back ⟨.enter id :: stack, waiting, order, cycle⟩)
    {rest below : List Frame} {v : NodeId} (hstack : stack = rest ++ .exit v :: below) {u : NodeId}
    (hu : u ∈ stored) (hnext : u ∈ next v) (hback : ¬back u v) :
    u ∈ order ∨ .exit u ∈ .exit id :: rest ∨ u ∈ waiting.erase id ∧ .enter u ∈ rest := by
  have hold := h.pushed (.enter id :: rest) v below (congrArg (Frame.enter id :: ·) hstack) u hu
    hnext hback
  rcases hold with hleft | hactive | ⟨hwait, henter⟩
  · exact .inl hleft
  · rcases List.mem_cons.mp hactive with heq | habove
    · cases heq
    · exact .inr (.inl (.tail _ habove))
  · by_cases hne : u = id
    · rw [hne]
      exact .inr (.inl (.head _))
    · rcases List.mem_cons.mp henter with heq | habove
      · cases heq
        exact absurd rfl hne
      · exact .inr (.inr ⟨(List.mem_erase_of_ne hne).mpr hwait, habove⟩)

/-- Entering a vertex, where those next to it were left or wait. -/
theorem enter (h : Ahead stored next back ⟨.enter id :: stack, waiting, order, cycle⟩)
    (hid : ∀ u ∈ stored, u ∈ next id → ¬back u id → u ∈ order ∨ u ∈ waiting.erase id)
    (cycle' : Option NodeId) :
    Ahead stored next back ⟨pending (waiting.erase id) (next id) ++ .exit id :: stack,
      waiting.erase id, order, cycle'⟩ where
  pushed above v below hstack u hu hnext hback := by
    have hpending : .exit v ∉ pending (waiting.erase id) (next id) := by
      intro hmem
      obtain ⟨_, _, _, heq⟩ := mem_pending.mp hmem
      cases heq
    rcases split_of_append_exit hpending hstack with ⟨rfl, rfl⟩ | ⟨rest, rfl, hrest⟩
    · rcases hid u hu hnext hback with hleft | hwait
      · exact .inl hleft
      · exact .inr (.inr ⟨hwait, mem_pending.mpr ⟨u, hnext, hwait, rfl⟩⟩)
    · rcases h.pushed_of_below hrest hu hnext hback with hleft | hactive | ⟨hwait, habove⟩
      · exact .inl hleft
      · exact .inr (.inl (List.mem_append_right _ hactive))
      · exact .inr (.inr ⟨hwait, List.mem_append_right _ (.tail _ habove)⟩)
  sorted := h.sorted

end Ahead

/-! ## The state of an orderly search -/

/-- What is true of a search of the vertices `stored` at any time: vertices are left after those
next to them, unless these lead to them. -/
structure Orderly (stored : List NodeId) (next : NodeId → List NodeId) (s : Search) : Prop
    extends Ahead stored next (Leads next) s where
  /-- Every vertex waits, is active or was left. -/
  partition : (s.waiting ++ (active s.stack ++ s.order)).Perm stored
  /-- Every vertex that waits is going to be entered. -/
  scheduled : ∀ u ∈ s.waiting, .enter u ∈ s.stack
  /-- From an active vertex a way leads to whatever is above its exit. -/
  way : s.stack.Pairwise fun f f' => ∀ v, f' = .exit v → Leads next v f.node

/-- A search that is to enter all vertices. -/
def start (stored : List NodeId) : Search := ⟨stored.map .enter, stored, [], none⟩

/-- Before the search begins no vertex is active. -/
theorem ahead_start (stored : List NodeId) (next : NodeId → List NodeId)
    (back : NodeId → NodeId → Prop) : Ahead stored next back (start stored) where
  pushed above v below hstack := by
    have hmem : Frame.exit v ∈ stored.map Frame.enter := by
      rw [show stored.map Frame.enter = above ++ .exit v :: below from hstack]
      simp
    obtain ⟨u, _, hu⟩ := List.mem_map.mp hmem
    cases hu
  sorted v hv := by cases hv

/-- All of them wait. -/
theorem orderly_start (stored : List NodeId) (next : NodeId → List NodeId) :
    Orderly stored next (start stored) where
  toAhead := ahead_start stored next _
  partition := by
    have hactive := active_map_enter stored []
    rw [List.append_nil] at hactive
    change (stored ++ (active (stored.map .enter) ++ [])).Perm stored
    rw [hactive]
    exact List.Perm.of_eq (List.append_nil stored)
  scheduled u hu := List.mem_map.mpr ⟨u, hu, rfl⟩
  way := by
    refine List.pairwise_map.mpr (List.pairwise_of_forall fun _ _ v hv => ?_)
    cases hv

namespace Orderly

variable {id : NodeId} {stack : List Frame} {waiting order : List NodeId} {cycle : Option NodeId}

/-- Leaving a vertex. -/
theorem leave (h : Orderly stored next ⟨.exit id :: stack, waiting, order, cycle⟩) :
    Orderly stored next ⟨stack, waiting, order ++ [id], cycle⟩ where
  toAhead := h.toAhead.leave
  partition := by
    refine List.Perm.trans (List.Perm.append_left waiting ?_) h.partition
    change (active stack ++ (order ++ [id])).Perm (id :: active stack ++ order)
    rw [← List.append_assoc]
    exact List.perm_append_comm
  scheduled u hu := by
    rcases List.mem_cons.mp (h.scheduled u hu) with heq | hmem
    · cases heq
    · exact hmem
  way := (List.pairwise_cons.mp h.way).2

/-- Passing over a vertex that was entered in the meantime. -/
theorem skip (h : Orderly stored next ⟨.enter id :: stack, waiting, order, cycle⟩)
    (hid : id ∉ waiting) : Orderly stored next ⟨stack, waiting, order, cycle⟩ where
  toAhead := h.toAhead.skip hid
  partition := h.partition
  scheduled u hu := by
    rcases List.mem_cons.mp (h.scheduled u hu) with heq | hmem
    · cases heq
      exact absurd hu hid
    · exact hmem
  way := (List.pairwise_cons.mp h.way).2

/-- A vertex that waits is neither active nor was it left. -/
theorem nodup_waiting {s : Search} (h : Orderly stored next s) (hstored : stored.Nodup) :
    s.waiting.Nodup := by
  have hnodup := h.partition.nodup_iff.mpr hstored
  exact (List.nodup_append.mp hnodup).1

/-- When a vertex is entered, a stored vertex was left or waits, unless it leads to the one that is
entered. -/
theorem left_or_waits (h : Orderly stored next ⟨.enter id :: stack, waiting, order, cycle⟩)
    {u : NodeId} (hu : u ∈ stored) (hlead : ¬Leads next u id) :
    u ∈ order ∨ u ∈ waiting.erase id := by
  have hne : u ≠ id := by
    rintro rfl
    exact hlead .refl
  have hmem := h.partition.mem_iff.mpr hu
  rcases List.mem_append.mp hmem with hwait | hmem
  · exact .inr ((List.mem_erase_of_ne hne).mpr hwait)
  · rcases List.mem_append.mp hmem with hactive | hleft
    · have hbelow : .exit u ∈ stack := mem_active.mp hactive
      have hway : Leads next u id := (List.pairwise_cons.mp h.way).1 _ hbelow u rfl
      exact absurd hway hlead
    · exact .inl hleft

/-- Entering a vertex. -/
theorem enter (h : Orderly stored next ⟨.enter id :: stack, waiting, order, cycle⟩)
    (hstored : stored.Nodup) (hid : id ∈ waiting) (cycle' : Option NodeId) :
    Orderly stored next ⟨pending (waiting.erase id) (next id) ++ .exit id :: stack,
      waiting.erase id, order, cycle'⟩ where
  toAhead := h.toAhead.enter (fun _ hu _ hlead => h.left_or_waits hu hlead) cycle'
  partition := by
    have hactive : active (pending (waiting.erase id) (next id) ++ .exit id :: stack) =
        id :: active stack := active_map_enter _ _
    refine List.Perm.trans ?_ h.partition
    change (waiting.erase id ++ (active _ ++ order)).Perm (waiting ++ (active stack ++ order))
    rw [hactive]
    have hmove : (waiting.erase id ++ id :: (active stack ++ order)).Perm
        (id :: waiting.erase id ++ (active stack ++ order)) := List.perm_middle
    exact hmove.trans (List.Perm.append_right _ (List.perm_cons_erase hid).symm)
  scheduled u hu := by
    obtain ⟨hne, hwait⟩ := (h.nodup_waiting hstored).mem_erase_iff.mp hu
    rcases List.mem_cons.mp (h.scheduled u hwait) with heq | hmem
    · cases heq
      exact absurd rfl hne
    · exact List.mem_append_right _ (.tail _ hmem)
  way := by
    obtain ⟨hhere, hbelow⟩ := List.pairwise_cons.mp h.way
    refine List.pairwise_append.mpr ⟨?_, List.pairwise_cons.mpr ⟨hhere, hbelow⟩, ?_⟩
    · refine List.pairwise_map.mpr (List.pairwise_of_forall fun _ _ v hv => ?_)
      cases hv
    · intro f hf f' hf' v hv
      obtain ⟨u, hu, _, rfl⟩ := mem_pending.mp hf
      have hstep : Leads next id u := .single hu
      rcases List.mem_cons.mp hf' with rfl | hf'
      · cases hv
        exact hstep
      · exact (hhere f' hf' v hv).trans hstep

end Orderly

/-! ## The whole search -/

/-- An orderly search stays orderly. -/
theorem Orderly.turn (hstored : stored.Nodup) {s t : Search} (h : Orderly stored next s)
    (hturn : Turn stored next s t) : Orderly stored next t := by
  cases hturn with
  | leave => exact h.leave
  | skip hid => exact h.skip hid
  | enter hid => exact h.enter hstored hid _

/-- It is orderly when its stack is empty. -/
theorem Orderly.run (hstored : stored.Nodup) {s : Search} (h : Orderly stored next s) :
    Orderly stored next (run stored next s) ∧ (run stored next s).stack = [] :=
  run_invariant (fun _ _ hturn hs => hs.turn hstored hturn) h

/-- Every vertex is left once. -/
theorem order_run_perm (hstored : stored.Nodup) (next : NodeId → List NodeId) :
    (run stored next (start stored)).order.Perm stored := by
  obtain ⟨h, hstack⟩ := (orderly_start stored next).run hstored
  have hwaiting : (run stored next (start stored)).waiting = [] := by
    apply List.eq_nil_iff_forall_not_mem.mpr
    intro u hu
    have hmem := h.scheduled u hu
    rw [hstack] at hmem
    cases hmem
  have hpartition := h.partition
  change (_ ++ (active _ ++ (run stored next (start stored)).order)).Perm stored at hpartition
  rw [hstack, hwaiting] at hpartition
  exact hpartition

/-- A vertex is left after those next to it, unless they lead to it. -/
theorem sublist_order_run (hstored : stored.Nodup) {u v : NodeId} (hu : u ∈ stored)
    (hv : v ∈ stored) (hnext : u ∈ next v) (hlead : ¬Leads next u v) :
    [u, v].Sublist (run stored next (start stored)).order := by
  obtain ⟨h, _⟩ := (orderly_start stored next).run hstored
  have hmem := (order_run_perm hstored next).mem_iff.mpr hv
  exact h.sorted v hmem u hu hnext hlead

/-! ## Steps from a vertex to itself -/

/-- A vertex that does not wait is not pushed. -/
theorem pending_filter_ne {waiting : List NodeId} {id : NodeId} (hid : id ∉ waiting)
    (ids : List NodeId) : pending waiting (ids.filter (· ≠ id)) = pending waiting ids := by
  unfold pending
  rw [List.filter_filter]
  refine congrArg (List.map Frame.enter) (List.filter_congr fun u _ => ?_)
  by_cases hu : u = id
  · simp [hu, hid]
  · simp [hu]

/-- The order in which vertices are left does not depend on where a vertex stands among those next
to itself, although it may depend on this which cycle is found first. -/
theorem order_run_congr {next' : NodeId → List NodeId}
    (h : ∀ id, (next id).filter (· ≠ id) = (next' id).filter (· ≠ id)) {s : Search}
    (hwaiting : s.waiting.Nodup) (cycle' : Option NodeId) :
    (run stored next s).order = (run stored next' { s with cycle := cycle' }).order := by
  induction s using run.induct stored next generalizing cycle' with
  | case1 waiting order cycle =>
    rw [run, run]
  | case2 id stack waiting order cycle ih =>
    rw [run, run]
    exact ih hwaiting cycle'
  | case3 id stack waiting order cycle hid others ih =>
    have hself : id ∉ waiting.erase id := fun hmem => (hwaiting.mem_erase_iff.mp hmem).1 rfl
    have hpending :
        pending (waiting.erase id) (next id) = pending (waiting.erase id) (next' id) := by
      rw [← pending_filter_ne hself, h, pending_filter_ne hself]
    have hothers := ih (hwaiting.erase id)
      (cycle' <|> (revisited stored (waiting.erase id) order (next' id)).getLast?)
    rw [run, if_pos hid, run, if_pos hid]
    simp only [others, hpending] at hothers ⊢
    exact hothers
  | case4 id stack waiting order cycle hid ih =>
    rw [run, if_neg hid, run, if_neg hid]
    exact ih hwaiting cycle'

end Search

end PortGraph
