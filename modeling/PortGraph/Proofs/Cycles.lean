import PortGraph.Proofs.Sorting

/-!
# Cycles are found

A search looks for cycles only when it enters a vertex, and only among the vertices next to it that
were entered before. What it finds there is active (`Orderly.leads_of_mem_revisited`), so that a way
leads from it to the vertex that is entered, and one step back: it lies on a cycle.

As long as nothing was found, the vertices next to an entered one were left or waited. So all of
them are left before it, without the exception made for ways back (`Vigilant.quiet`). If that is so
until the end, every step leads to an earlier place in the order, and no way leads back to where it
began (`not_transGen_of_sorted`).

So a sort reports a cycle, and one vertex of it, just when there is one (`sort_reports_cycles`). In
a consistent graph the cycles upstream are those downstream, walked through the other way.
-/

namespace PortGraph

namespace Search

variable {stored : List NodeId} {next : NodeId → List NodeId}

/-! ## Coming back to a vertex -/

/-- A vertex that a search comes back to neither waits nor was left. -/
theorem mem_revisited {waiting order ids : List NodeId} {u : NodeId} :
    u ∈ revisited stored waiting order ids ↔
      u ∈ ids ∧ u ∈ stored ∧ ¬(u ∈ order ∨ u ∈ waiting) := by
  simp only [revisited, List.mem_filter, Bool.and_eq_true, Bool.not_eq_true',
    List.contains_eq_mem, decide_eq_true_eq, decide_eq_false_iff_not]
  tauto

/-- A way leads from it to the vertex that is entered. -/
theorem Orderly.leads_of_mem_revisited {id u : NodeId} {stack : List Frame}
    {waiting order : List NodeId} {cycle : Option NodeId}
    (h : Orderly stored next ⟨.enter id :: stack, waiting, order, cycle⟩)
    (hu : u ∈ revisited stored (waiting.erase id) order (next id)) : Leads next u id := by
  obtain ⟨_, hstored, hneither⟩ := mem_revisited.mp hu
  by_contra hlead
  exact hneither (h.left_or_waits hstored hlead)

/-! ## What a search knows of cycles -/

/-- What is true at any time of the cycle that a search found, if it found one. -/
structure Vigilant (stored : List NodeId) (next : NodeId → List NodeId) (s : Search) : Prop where
  /-- The vertex that was found lies on a cycle. -/
  sound : ∀ v, s.cycle = some v → Relation.TransGen (fun a b => b ∈ next a) v v
  /-- If none was found, every vertex is left after all of those next to it. -/
  quiet : s.cycle = none → Ahead stored next (fun _ _ => False) s

namespace Vigilant

variable {id : NodeId} {stack : List Frame} {waiting order : List NodeId} {cycle : Option NodeId}

/-- Entering a vertex, the only time when a cycle may be found. -/
theorem enter (h : Vigilant stored next ⟨.enter id :: stack, waiting, order, cycle⟩)
    (horderly : Orderly stored next ⟨.enter id :: stack, waiting, order, cycle⟩) :
    Vigilant stored next ⟨pending (waiting.erase id) (next id) ++ .exit id :: stack,
      waiting.erase id, order,
      cycle <|> (revisited stored (waiting.erase id) order (next id)).getLast?⟩ where
  sound v hv := by
    cases cycle with
    | some k => exact h.sound v hv
    | none =>
      have hmem : v ∈ revisited stored (waiting.erase id) order (next id) :=
        List.mem_of_getLast? hv
      exact .tail' (horderly.leads_of_mem_revisited hmem) (mem_revisited.mp hmem).1
  quiet hnone := by
    cases cycle with
    | some k => cases hnone
    | none =>
      have hnil : revisited stored (waiting.erase id) order (next id) = [] :=
        List.getLast?_eq_none_iff.mp hnone
      refine (h.quiet rfl).enter (fun u hu hnext _ => ?_) _
      by_contra hneither
      have hmem := mem_revisited.mpr ⟨hnext, hu, hneither⟩
      rw [hnil] at hmem
      cases hmem

/-- A vigilant search stays vigilant. -/
theorem turn {s t : Search} (h : Vigilant stored next s) (horderly : Orderly stored next s)
    (hturn : Turn stored next s t) : Vigilant stored next t := by
  cases hturn with
  | leave => exact ⟨h.sound, fun hnone => (h.quiet hnone).leave⟩
  | skip hid => exact ⟨h.sound, fun hnone => (h.quiet hnone).skip hid⟩
  | enter hid => exact h.enter horderly

end Vigilant

/-- At the beginning no cycle was found. -/
theorem vigilant_start (stored : List NodeId) (next : NodeId → List NodeId) :
    Vigilant stored next (start stored) where
  sound v hv := by cases hv
  quiet _ := ahead_start stored next _

/-- The whole search is vigilant. -/
theorem vigilant_run (hstored : stored.Nodup) (next : NodeId → List NodeId) :
    Vigilant stored next (run stored next (start stored)) := by
  have hstep (s t : Search) (hturn : Turn stored next s t)
      (hs : Orderly stored next s ∧ Vigilant stored next s) :
      Orderly stored next t ∧ Vigilant stored next t :=
    ⟨hs.1.turn hstored hturn, hs.2.turn hs.1 hturn⟩
  exact (run_invariant hstep ⟨orderly_start stored next, vigilant_start stored next⟩).1.2

/-! ## Orders without a way back -/

/-- In a list without repetitions, what comes first has the lower index. -/
theorem idxOf_lt_of_sublist {l : List NodeId} (hl : l.Nodup) {u v : NodeId}
    (h : [u, v].Sublist l) : l.idxOf u < l.idxOf v := by
  obtain ⟨above, below, rfl, hu, hv⟩ := List.cons_sublist_iff.mp h
  have hv : v ∈ below := List.singleton_sublist.mp hv
  have hdisjoint : v ∉ above := fun hmem => (List.nodup_append.mp hl).2.2 v hmem v hv rfl
  rw [List.idxOf_append_of_mem hu, List.idxOf_append_of_notMem hdisjoint]
  exact Nat.lt_of_lt_of_le (List.idxOf_lt_length_of_mem hu) (Nat.le_add_right _ _)

/-- If every vertex comes after those next to it, no way leads back to where it began. -/
theorem not_transGen_of_sorted {order : List NodeId} (horder : order.Nodup)
    (hnext : ∀ a b, b ∈ next a → a ∈ stored)
    (hsorted : ∀ v ∈ stored, ∀ u ∈ stored, u ∈ next v → [u, v].Sublist order) (v : NodeId) :
    ¬Relation.TransGen (fun a b => b ∈ next a) v v := by
  have hstep {a b : NodeId} (hb : b ∈ next a) (hmem : b ∈ stored) :
      order.idxOf b < order.idxOf a :=
    idxOf_lt_of_sublist horder (hsorted a (hnext a b hb) b hmem hb)
  -- a vertex on the way is stored, because it has another one next to it
  have hway {u w : NodeId} (h : Relation.TransGen (fun a b => b ∈ next a) u w) :
      w ∈ stored → order.idxOf w < order.idxOf u := by
    induction h with
    | single hb => exact hstep hb
    | tail _ hb ih => exact fun hmem => Nat.lt_trans (hstep hb hmem) (ih (hnext _ _ hb))
  intro h
  obtain ⟨u, hu, _⟩ := Relation.TransGen.head'_iff.mp h
  exact Nat.lt_irrefl _ (hway h (hnext v u hu))

/-- A search finds nothing only if there are no cycles. -/
theorem not_transGen_of_cycle_eq_none (hstored : stored.Nodup)
    (hnext : ∀ a b, b ∈ next a → a ∈ stored)
    (h : (run stored next (start stored)).cycle = none) (v : NodeId) :
    ¬Relation.TransGen (fun a b => b ∈ next a) v v := by
  have hperm := order_run_perm hstored next
  have hahead := (vigilant_run hstored next).quiet h
  refine not_transGen_of_sorted (hperm.nodup_iff.mpr hstored) hnext (fun v hv u hu hu' => ?_) v
  exact hahead.sorted v (hperm.mem_iff.mpr hv) u hu hu' not_false

end Search

/-! ## What a sort reports -/

namespace Graph

variable {φ : Flavour} {ν : Type} [Vertex φ ν]

/-- A vertex lies on a cycle in direction `d` if steps in that direction, at least one, lead from it
back to it. One that is connected to itself does. -/
def OnCycle (g : Graph ν) (d : Direction) (v : NodeId) : Prop :=
  Relation.TransGen (fun a b => b ∈ g.neighbours d a) v v

/-- Only stored vertices lie on a cycle. -/
theorem OnCycle.contains {g : Graph ν} {d : Direction} {v : NodeId} (h : g.OnCycle d v) :
    g.contains v = true := by
  obtain ⟨u, hu, _⟩ := Relation.TransGen.head'_iff.mp h
  exact contains_of_mem_neighbours hu

/-- Cycles can be walked through the other way. -/
theorem Consistent.onCycle_opposite {g : Graph ν} (hg : g.Consistent) {d : Direction} {v : NodeId}
    (h : g.OnCycle d v) : g.OnCycle d.opposite v := by
  have hback : Relation.TransGen (Function.swap fun a b => b ∈ g.neighbours d a) v v :=
    Relation.transGen_swap.mpr h
  exact Relation.TransGen.mono (fun _ _ ha => hg.mem_neighbours_comm.mp ha) _ _ hback

/-- A sort reports the vertex that the search found. -/
theorem journal_sort (g : Graph ν) (d : Direction) :
    (g.sort d).journal =
      ((Search.run g.ids (g.neighbours d) (Search.start g.ids)).cycle.map
        fun v => Entry.event (.cycle g.id v)).toList := by
  change _ = ((g.search d).cycle.map fun v => Entry.event (.cycle g.id v)).toList
  unfold sort
  generalize g.search d = s
  obtain ⟨_, _, order, _ | id⟩ := s <;> rfl

/-- A sort reports nothing, and there are no cycles, or it reports one vertex that is on a cycle. -/
theorem journal_sort_cases (g : Graph ν) (d : Direction) :
    ((g.sort d).journal = [] ∧ ∀ v, ¬g.OnCycle d v) ∨
      ∃ u, (g.sort d).journal = [.event (.cycle g.id u)] ∧ g.OnCycle d u := by
  have hnext (a b : NodeId) (hb : b ∈ g.neighbours d a) : a ∈ g.ids :=
    IdMap.mem_keys_iff.mpr (contains_of_mem_neighbours hb)
  have hids := g.vertices.nodup_keys
  rw [journal_sort]
  cases hcycle : (Search.run g.ids (g.neighbours d) (Search.start g.ids)).cycle with
  | none => exact .inl ⟨rfl, Search.not_transGen_of_cycle_eq_none hids hnext hcycle⟩
  | some u => exact .inr ⟨u, rfl, (Search.vigilant_run hids _).sound u hcycle⟩

/-- Somewhere in a journal of the graph a cycle is reported. -/
def ReportsCycle (g : Graph ν) (journal : List Entry) : Prop :=
  ∃ v, Entry.event (.cycle g.id v) ∈ journal

/-- A sort reports a cycle just when there is one. -/
theorem reportsCycle_sort_iff {g : Graph ν} {d : Direction} :
    g.ReportsCycle (g.sort d).journal ↔ ∃ v, g.OnCycle d v := by
  rcases g.journal_sort_cases d with ⟨hnil, hnone⟩ | ⟨u, hu, hon⟩
  · constructor
    · rintro ⟨v, hv⟩
      rw [hnil] at hv
      cases hv
    · rintro ⟨v, hv⟩
      exact absurd hv (hnone v)
  · refine ⟨fun _ => ⟨u, hon⟩, fun _ => ⟨u, ?_⟩⟩
    rw [hu]
    exact .head _

/-- On every graph, if the stored vertices contain a cycle in the direction of a sort, the sort
reports one stored vertex that lies on a cycle, and nothing else; if they contain none, it reports
nothing. So on a consistent graph a sort from upstream reports a cycle just when one from downstream
does. -/
theorem sort_reports_cycles (g : Graph ν) :
    (∀ d, (∃ v, g.OnCycle d v) → ∃ v, g.contains v = true ∧ g.OnCycle d v ∧
      (g.sort d).journal = [.event (.cycle g.id v)]) ∧
      (∀ d, (∀ v, ¬g.OnCycle d v) → (g.sort d).journal = []) ∧
      (g.Consistent →
        (g.ReportsCycle g.sortFromUpstream.journal ↔
          g.ReportsCycle g.sortFromDownstream.journal)) := by
  refine ⟨fun d hcycle => ?_, fun d hnone => ?_, fun hg => ?_⟩
  · rcases g.journal_sort_cases d with ⟨_, hnone⟩ | ⟨u, hu, hon⟩
    · obtain ⟨v, hv⟩ := hcycle
      exact absurd hv (hnone v)
    · exact ⟨u, hon.contains, hon, hu⟩
  · rcases g.journal_sort_cases d with ⟨hnil, _⟩ | ⟨u, _, hon⟩
    · exact hnil
    · exact absurd hon (hnone u)
  · have hturn (v : NodeId) : g.OnCycle .incoming v ↔ g.OnCycle .outgoing v :=
      ⟨hg.onCycle_opposite, hg.onCycle_opposite⟩
    exact (reportsCycle_sort_iff.trans (exists_congr hturn)).trans reportsCycle_sort_iff.symm

/-- The two vertices that are connected both ways are reported from either side. When they are
connected one way only, nothing is. -/
theorem sort_reports_cycles_tailed :
    let untied := (tailed.disconnect .outgoing ⟨NodeId.first.next, 0⟩ ⟨.first, 0⟩).val.1
    ((∃ v, tailed.OnCycle .incoming v) ∧ (∃ v, tailed.contains v = true ∧
      tailed.OnCycle .incoming v ∧
      (tailed.sort .incoming).journal = [.event (.cycle tailed.id v)]) ∧ tailed.Consistent ∧
      (tailed.ReportsCycle tailed.sortFromUpstream.journal ↔
        tailed.ReportsCycle tailed.sortFromDownstream.journal)) ∧
      (∀ v, ¬untied.OnCycle .outgoing v) ∧ (untied.sort .outgoing).journal = [] := by
  intro untied
  have hcycle : ∃ v, tailed.OnCycle .incoming v := by
    have hin : NodeId.first.next ∈ tailed.neighbours .incoming .first := by decide
    have hback : NodeId.first ∈ tailed.neighbours .incoming NodeId.first.next := by decide
    exact ⟨.first, .tail (.single hin) hback⟩
  have hnone : ∀ v, ¬untied.OnCycle .outgoing v := acyclic_of_ascending (by decide)
  exact ⟨⟨hcycle, (sort_reports_cycles tailed).1 .incoming hcycle, consistent_tailed,
      (sort_reports_cycles tailed).2.2 consistent_tailed⟩,
    hnone, (sort_reports_cycles untied).2.1 .outgoing hnone⟩

end Graph

end PortGraph
