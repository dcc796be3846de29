import PortGraph.Proofs.Sorting

/-!
# Every vertex is visited once

A vertex may be pushed once for every connection that leads to it, so the stack of a search can grow
while less is left to do. What never grows is the `effort`: the frames on the stack, and for every
vertex that waits its exit and the frames that entering it may push. Each turn takes some of it
(`Turn.effort_lt`), so that a search ends on every graph, whatever its ports record, after at most
two turns for every vertex and one for every entry in the lists of neighbours (`exists_turns_run`).

What a sort emits are the stored vertices, each once. So looking up an emitted vertex cannot fail,
and a visit calls its function on every vertex with what is stored there (`sort_visits_all`).
-/

namespace PortGraph

namespace Search

variable {stored : List NodeId} {next : NodeId → List NodeId}

/-! ## Effort -/

/-- What is left to do: the frames on the stack, and for every vertex that waits its exit and the
frames that may be pushed when it is entered. -/
def effort (next : NodeId → List NodeId) (s : Search) : Nat :=
  s.stack.length + s.waiting.length + (s.waiting.flatMap next).length

/-- No more frames are pushed for a vertex than there are next to it. -/
theorem length_pending_le (waiting ids : List NodeId) :
    (pending waiting ids).length ≤ ids.length := by
  rw [pending, List.length_map]
  exact List.length_filter_le _ _

/-- Every turn takes some of the effort. -/
theorem Turn.effort_lt {s t : Search} (h : Turn stored next s t) :
    effort next t < effort next s := by
  cases h with
  | leave =>
    simp only [effort, List.length_cons]
    omega
  | skip hid =>
    simp only [effort, List.length_cons]
    omega
  | @enter id stack waiting order cycle hid =>
    -- the vertex gives up its own share
    have hpush := length_pending_le (waiting.erase id) (next id)
    have hperm := List.perm_cons_erase hid
    have hlength := hperm.length_eq
    have hframes := (hperm.flatMap_right next).length_eq
    rw [List.length_cons] at hlength
    rw [List.flatMap_cons, List.length_append] at hframes
    simp only [effort, List.length_append, List.length_cons]
    omega

/-- So no search goes on forever, from whatever state. -/
theorem wellFounded_turn (stored : List NodeId) (next : NodeId → List NodeId) :
    WellFounded fun t s => Turn stored next s t :=
  Subrelation.wf (fun h => Turn.effort_lt h) (measure (effort next)).wf

/-- A number of turns leads from one state to another. -/
inductive Turns (stored : List NodeId) (next : NodeId → List NodeId) : Nat → Search → Search → Prop
  | refl (s : Search) : Turns stored next 0 s s
  | tail {n : Nat} {r s t : Search} (hturns : Turns stored next n r s)
    (hturn : Turn stored next s t) : Turns stored next (n + 1) r t

/-- A search ends after no more turns than the effort at its beginning, with an empty stack. -/
theorem exists_turns_run (stored : List NodeId) (next : NodeId → List NodeId) (s : Search) :
    ∃ n ≤ effort next s, Turns stored next n s (run stored next s) ∧
      (run stored next s).stack = [] := by
  have hstep (r t : Search) (hturn : Turn stored next r t)
      (hr : ∃ n, Turns stored next n s r ∧ n + effort next r ≤ effort next s) :
      ∃ n, Turns stored next n s t ∧ n + effort next t ≤ effort next s := by
    obtain ⟨n, hturns, hn⟩ := hr
    have hlt := hturn.effort_lt
    exact ⟨n + 1, hturns.tail hturn, by omega⟩
  obtain ⟨⟨n, hturns, hn⟩, hstack⟩ :=
    run_invariant hstep ⟨0, .refl s, Nat.le_of_eq (Nat.zero_add _)⟩
  exact ⟨n, by omega, hturns, hstack⟩

/-- At the beginning all vertices are on the stack and wait. -/
theorem effort_start (stored : List NodeId) (next : NodeId → List NodeId) :
    effort next (start stored) = 2 * stored.length + (stored.flatMap next).length := by
  simp only [effort, start, List.length_map]
  omega

end Search

/-! ## Visits -/

namespace Graph

variable {φ : Flavour} {ν : Type}

/-- There are as many identifiers as vertices. -/
theorem length_ids (g : Graph ν) : g.ids.length = g.size := List.length_map _

/-- Those of the listed vertices that are stored, with their identifiers. -/
def entriesOf (g : Graph ν) (ids : List NodeId) : List (NodeId × ν) :=
  ids.filterMap fun id => (g.find? id).map fun v => (id, v)

/-- The entries of all identifiers are all entries. -/
theorem entriesOf_ids (g : Graph ν) : g.entriesOf g.ids = g.vertices.entries := by
  unfold entriesOf ids IdMap.keys
  rw [List.filterMap_map]
  have hself : ∀ e ∈ g.vertices.entries,
      ((fun id => (g.find? id).map fun v => (id, v)) ∘ Prod.fst) e = some e := by
    intro e he
    have hfind : g.find? e.1 = some e.2 := IdMap.get?_eq_some_iff.mpr he
    simp only [Function.comp_apply, hfind, Option.map_some]
  rw [List.filterMap_congr hself, List.filterMap_some]

theorem entriesOf_cons {g : Graph ν} {id : NodeId} {v : ν} (hv : g.find? id = some v)
    (rest : List NodeId) : g.entriesOf (id :: rest) = (id, v) :: g.entriesOf rest := by
  rw [entriesOf, List.filterMap_cons, hv]
  rfl

/-- Stored vertices have their entries in the order in which they are listed. -/
theorem map_fst_entriesOf {g : Graph ν} {ids : List NodeId}
    (hids : ∀ k ∈ ids, g.contains k = true) : (g.entriesOf ids).map Prod.fst = ids := by
  induction ids with
  | nil => rfl
  | cons k rest ih =>
    obtain ⟨v, hv⟩ := contains_iff.mp (hids k (.head _))
    rw [entriesOf_cons hv, List.map_cons, ih fun j hj => hids j (.tail _ hj)]

/-- Stored vertices are looked up one after the other without a fault. -/
theorem foldlM_index {g : Graph ν} {ids : List NodeId} (hids : ∀ k ∈ ids, g.contains k = true)
    {σ : Type} (f : σ → NodeId → ν → σ) (s : σ) :
    ids.foldlM (fun s id => (g.index id).map (f s id)) s =
      .ok ((g.entriesOf ids).foldl (fun s e => f s e.1 e.2) s) := by
  induction ids generalizing s with
  | nil => rfl
  | cons k rest ih =>
    obtain ⟨v, hv⟩ := contains_iff.mp (hids k (.head _))
    have hindex : (g.index k).map (f s k) = .ok (f s k v) := by
      rw [index, hv]
      rfl
    rw [List.foldlM_cons, hindex, entriesOf_cons hv, List.foldl_cons]
    exact ih (fun j hj => hids j (.tail _ hj)) (f s k v)

variable [Vertex φ ν]

/-- What is emitted is stored. -/
theorem contains_of_mem_sort {g : Graph ν} {d : Direction} {id : NodeId}
    (h : id ∈ (g.sort d).val) : g.contains id = true :=
  IdMap.mem_keys_iff.mp ((g.sort_perm d).mem_iff.mp h)

/-- On every graph, whatever its ports record, a sort ends after a number of turns that is bounded
by the numbers of vertices and neighbours, and has emitted the identifiers of the stored vertices,
each once. A visit reports what the sort reports and calls its function for every stored vertex,
each once, in the order of the sort. -/
theorem sort_visits_all (g : Graph ν) (d : Direction) :
    (WellFounded fun t s => Search.Turn g.ids (g.neighbours d) s t) ∧
    (∃ n ≤ 2 * g.size + (g.ids.flatMap (g.neighbours d)).length,
      Search.Turns g.ids (g.neighbours d) n (Search.start g.ids) (g.search d) ∧
        (g.search d).stack = [] ∧ (g.search d).order = (g.sort d).val) ∧
      (g.sort d).val.Perm g.ids ∧ (g.sort d).val.Nodup ∧
      ∃ visits : List (NodeId × ν), visits.Perm g.vertices.entries ∧
        visits.map Prod.fst = (g.sort d).val ∧
        ∀ (σ : Type) (f : σ → NodeId → ν → σ) (s : σ), g.visit d f s =
          ⟨.ok (visits.foldl (fun s e => f s e.1 e.2) s), (g.sort d).journal⟩ := by
  have hperm := g.sort_perm d
  have hstored : ∀ id ∈ (g.sort d).val, g.contains id = true := fun id => contains_of_mem_sort
  refine ⟨Search.wellFounded_turn _ _, ?_, hperm, hperm.nodup_iff.mpr g.vertices.nodup_keys, ?_⟩
  · obtain ⟨n, hn, hturns, hstack⟩ :=
      Search.exists_turns_run g.ids (g.neighbours d) (Search.start g.ids)
    rw [Search.effort_start, length_ids] at hn
    exact ⟨n, hn, hturns, hstack, (g.val_sort d).symm⟩
  · refine ⟨g.entriesOf (g.sort d).val, ?_, map_fst_entriesOf hstored, fun σ f s => ?_⟩
    · rw [← g.entriesOf_ids]
      exact hperm.filterMap _
    · refine Journaled.ext (foldlM_index hstored f s) ?_
      exact List.append_nil _

end Graph

end PortGraph
