import Mathlib.Logic.Function.Iterate
import PortGraph.Proofs.Agreement

/-!
# Removing all connections of a port

`disconnectAll` works off the list of a port, and changes a far port as often as it is listed. What
a far port loses does not depend on the others, nor on the order in which they are listed: its
earliest entries for the port, one for each time, as far as it has so many (`dropEarliest`). So the
port can be freed in whatever state the graph is, also where the far ports disagree with it. Only
the answer tells whether they did, and it names the first entry of the list that came too late: the
far port had recorded the port no more often than it was listed before (`FirstMissing`). `Detached`
puts this together.
-/

namespace PortGraph

/-! ## Dropping the earliest entries -/

/-- The slots without the `n` earliest entries for `x`. -/
def dropEarliest (x : Slot) (n : Nat) (slots : List Slot) : List Slot := (·.erase x)^[n] slots

theorem dropEarliest_succ (x : Slot) (n : Nat) (slots : List Slot) :
    dropEarliest x (n + 1) slots = dropEarliest x n (slots.erase x) := rfl

/-- Where nothing is left to drop, nothing is dropped. -/
theorem dropEarliest_min (x : Slot) (n : Nat) (slots : List Slot) :
    dropEarliest x (min n (slots.count x)) slots = dropEarliest x n slots := by
  induction n generalizing slots with
  | zero => rw [Nat.zero_min]
  | succ n ih =>
    by_cases hx : x ∈ slots
    · have hcount : slots.count x = (slots.erase x).count x + 1 := by
        have hpos := List.count_pos_iff.mpr hx
        rw [List.count_erase_self]
        omega
      rw [hcount, Nat.add_min_add_right, dropEarliest_succ, ih, dropEarliest_succ]
    · have hfixed : slots.erase x = slots := List.erase_of_not_mem hx
      rw [List.count_eq_zero.mpr hx, Nat.min_zero]
      exact (Function.iterate_fixed hfixed (n + 1)).symm

/-- To forget connections to `x` at a port is to drop the earliest entries for it. -/
theorem Port.opposites_iterate_unlink {φ : Flavour} (x : Slot) (n : Nat) (P : Port φ) :
    ((Port.unlink · x)^[n] P).opposites = dropEarliest x n P.opposites :=
  Function.Semiconj.iterate_right (fun P => opposites_unlink P x) n P

namespace Graph

variable {φ : Flavour} {ν : Type} [Vertex φ ν] [LawfulPorts φ ν]

/-! ## The far ports -/

/-- A far port forgets as many connections as it is listed, and no other port changes. -/
theorem port?_forgetAt (g : Graph ν) (d : Direction) (near : Slot) (fars : List Slot)
    (e : Direction) (t : Slot) :
    (g.forgetAt d near fars).1.port? e t =
      if e = d then (g.port? e t).map (Port.unlink · near)^[fars.count t] else g.port? e t := by
  induction fars generalizing g with
  | nil =>
    rw [List.count_nil, Function.iterate_zero, Option.map_id]
    exact (ite_self _).symm
  | cons far rest ih =>
    rw [forgetAt, ih, port?_adjustPort]
    by_cases he : e = d
    · subst he
      by_cases ht : t = far
      · subst ht
        rw [List.count_cons_self, Function.iterate_succ, ← Option.map_map]
        simp
      · rw [List.count_cons_of_ne (Ne.symm ht)]
        simp [ht]
    · simp [he]

omit [LawfulPorts φ ν] in
/-- A vertex without a far port is not touched. -/
theorem find?_forgetAt {g : Graph ν} {d : Direction} {near : Slot} {fars : List Slot} {k : NodeId}
    (hk : ∀ far ∈ fars, k ≠ far.node) : (g.forgetAt d near fars).1.find? k = g.find? k := by
  induction fars generalizing g with
  | nil => rfl
  | cons far rest ih =>
    rw [forgetAt, ih fun t ht => hk t (.tail _ ht), find?_adjustPort_of_ne (hk far (.head _))]

/-- When it is the turn of the far port `q`, after those listed before, it records `p` no more: it
never did so more often than it was listed before. -/
def Missing (g : Graph ν) (d : Direction) (p : Slot) (before : List Slot) (q : Slot) : Prop :=
  (g.peers d.opposite q).count p ≤ before.count q

/-- The far port `q` is the first one in the list that is missing its entry for `p`. -/
def FirstMissing (g : Graph ν) (d : Direction) (p : Slot) (slots : List Slot) (q : Slot) : Prop :=
  ∃ before after, slots = before ++ q :: after ∧ g.Missing d p before q ∧
    ∀ pre x post, before = pre ++ x :: post → ¬g.Missing d p pre x

/-- What is missing after `far` had its turn was missing already, now that `far` is listed. -/
theorem missing_adjustPort {g : Graph ν} {d : Direction} {p far : Slot}
    (hfar : p ∈ g.peers d.opposite far) (before : List Slot) (x : Slot) :
    (g.adjustPort d.opposite far (·.unlink p)).Missing d p before x ↔
      g.Missing d p (far :: before) x := by
  unfold Missing
  rw [peers_adjustPort_unlink]
  by_cases hx : x = far
  · subst hx
    have hpos := List.count_pos_iff.mpr hfar
    rw [if_pos ⟨rfl, rfl⟩, List.count_erase_self, List.count_cons_self]
    omega
  · rw [if_neg fun h => hx h.2, List.count_cons_of_ne (Ne.symm hx)]

/-- The walk over the far ports names the first one that is missing its entry. -/
theorem forgetAt_snd_eq_some_iff {g : Graph ν} {d : Direction} {p q : Slot} {fars : List Slot} :
    (g.forgetAt d.opposite p fars).2 = some q ↔ g.FirstMissing d p fars q := by
  induction fars generalizing g with
  | nil =>
    refine iff_of_false nofun ?_
    rintro ⟨before, after, hsplit, _⟩
    exact absurd hsplit.symm (by simp)
  | cons far rest ih =>
    simp only [forgetAt]
    split
    · next hrecorded =>
      rw [records_iff] at hrecorded
      rw [ih]
      -- the first one has its entry, so that the first one missing is a later one
      constructor
      · rintro ⟨before, after, rfl, hmissing, hfirst⟩
        refine ⟨far :: before, after, rfl, (missing_adjustPort hrecorded _ _).mp hmissing, ?_⟩
        rintro (_ | ⟨y, pre⟩) x post heq
        · obtain ⟨rfl, _⟩ := List.cons.inj heq
          exact Nat.not_le_of_gt (List.count_pos_iff.mpr hrecorded)
        · obtain ⟨rfl, hbefore⟩ := List.cons.inj heq
          rw [← missing_adjustPort hrecorded]
          exact hfirst pre x post hbefore
      · rintro ⟨_ | ⟨y, before⟩, after, heq, hmissing, hfirst⟩
        · obtain ⟨rfl, _⟩ := List.cons.inj heq
          exact absurd hmissing (Nat.not_le_of_gt (List.count_pos_iff.mpr hrecorded))
        · obtain ⟨rfl, hrest⟩ := List.cons.inj heq
          refine ⟨before, after, hrest, (missing_adjustPort hrecorded _ _).mpr hmissing, ?_⟩
          intro pre x post hbefore
          rw [missing_adjustPort hrecorded]
          exact hfirst (far :: pre) x post (congrArg (far :: ·) hbefore)
    · next hmissing =>
      rw [records_iff, ← List.count_pos_iff, Nat.not_lt] at hmissing
      constructor
      · rintro ⟨rfl⟩
        exact ⟨[], rest, rfl, hmissing, fun pre x post heq => absurd heq.symm (by simp)⟩
      · rintro ⟨_ | ⟨y, before⟩, after, heq, _, hfirst⟩
        · exact congrArg some (List.cons.inj heq).1
        · obtain ⟨rfl, _⟩ := List.cons.inj heq
          exact absurd hmissing (hfirst [] far before rfl)

/-! ## The port -/

/-- The graph `h` is `g` after all connections of the port of direction `d` at `p` were removed,
which listed `slots`; `answer` is what was said to it. -/
structure Detached (g : Graph ν) (d : Direction) (p : Slot) (slots : List Slot) (h : Graph ν)
    (answer : Except ConnectError Nat) : Prop where
  /-- Only opposites change. -/
  rewired : Rewired g h
  peers_near : h.peers d p = []
  /-- A port of the opposite direction loses its earliest entries for the port, as many as both list
  of each other. -/
  peers_far (q : Slot) : h.peers d.opposite q =
    dropEarliest p (min (slots.count q) ((g.peers d.opposite q).count p)) (g.peers d.opposite q)
  /-- Every port that is neither the port nor listed there is as it was. -/
  port?_eq {e : Direction} {s : Slot} (hnear : ¬(e = d ∧ s = p))
    (hfar : ¬(e = d.opposite ∧ s ∈ slots)) : h.port? e s = g.port? e s
  /-- So is every vertex without such a port. -/
  find?_eq {k : NodeId} (hnear : k ≠ p.node) (hfar : ∀ q ∈ slots, k ≠ q.node) :
    h.find? k = g.find? k
  answer_ok_iff {n : Nat} : answer = .ok n ↔ n = slots.length ∧ ∀ q ∈ slots,
    g.HasPort d.opposite q ∧ slots.count q ≤ (g.peers d.opposite q).count p
  answer_error_iff {e : ConnectError} : answer = .error e ↔ ∃ q, g.FirstMissing d p slots q ∧
    e = .inconsistentConnection (p.at d) (q.at d.opposite)
  /-- In a consistent graph nothing is missing, and no trace of the port is left. -/
  of_consistent (hg : g.Consistent) :
    answer = .ok slots.length ∧ (∀ q, p ∉ h.peers d.opposite q) ∧ h.Consistent

section Port

variable {g : Graph ν} {d : Direction} {p : Slot} {P : Port φ}

omit [LawfulPorts φ ν] in
/-- The answer depends on whether a far port failed. -/
theorem disconnectAll_snd (hP : g.port? d p = some P) :
    (g.disconnectAll d p).val.2 =
      match ((g.adjustPort d p Port.clear).forgetAt d.opposite p P.opposites).2 with
      | none => .ok P.opposites.length
      | some q => .error (.inconsistentConnection (p.at d) (q.at d.opposite)) := by
  have hopp : g.opposites d p = .ok P.opposites := by
    rw [opposites, port_eq_ok_iff.mpr hP]
    rfl
  rw [disconnectAll, hopp]
  simp only
  split
  · next heq => rw [heq]; rfl
  · next heq => rw [heq]; rfl

/-- To clear a port does not concern the far ports. -/
theorem peers_opposite_clear (g : Graph ν) (d : Direction) (p q : Slot) :
    (g.adjustPort d p Port.clear).peers d.opposite q = g.peers d.opposite q := by
  rw [peers_adjustPort_clear, if_neg fun h => d.opposite_ne h.1]

/-- All is well if and only if each far port records the port as often as it is listed. -/
theorem disconnectAll_eq_ok_iff (hP : g.port? d p = some P) {n : Nat} :
    (g.disconnectAll d p).val.2 = .ok n ↔ n = P.opposites.length ∧ ∀ q ∈ P.opposites,
      g.HasPort d.opposite q ∧ P.opposites.count q ≤ (g.peers d.opposite q).count p := by
  have hnone : ((g.adjustPort d p Port.clear).forgetAt d.opposite p P.opposites).2 = none ↔
      ∀ q ∈ P.opposites,
        g.HasPort d.opposite q ∧ P.opposites.count q ≤ (g.peers d.opposite q).count p := by
    rw [forgetAt_snd_eq_none_iff]
    constructor
    · intro h q hq
      have hle := h q
      rw [peers_opposite_clear] at hle
      have hpos := Nat.lt_of_lt_of_le (List.count_pos_iff.mpr hq) hle
      exact ⟨hasPort_of_mem_peers (List.count_pos_iff.mp hpos), hle⟩
    · intro h q
      rw [peers_opposite_clear]
      by_cases hq : q ∈ P.opposites
      · exact (h q hq).2
      · rw [List.count_eq_zero.mpr hq]
        exact Nat.zero_le _
  rw [disconnectAll_snd hP, ← hnone]
  cases ((g.adjustPort d p Port.clear).forgetAt d.opposite p P.opposites).2 with
  | none => simp [eq_comm]
  | some q => simp

/-- Otherwise the answer names the first far port that was missing its entry. -/
theorem disconnectAll_eq_error_iff (hP : g.port? d p = some P) {e : ConnectError} :
    (g.disconnectAll d p).val.2 = .error e ↔ ∃ q, g.FirstMissing d p P.opposites q ∧
      e = .inconsistentConnection (p.at d) (q.at d.opposite) := by
  have hfirst (q : Slot) : g.FirstMissing d p P.opposites q ↔
      ((g.adjustPort d p Port.clear).forgetAt d.opposite p P.opposites).2 = some q := by
    rw [forgetAt_snd_eq_some_iff]
    simp only [FirstMissing, Missing, peers_opposite_clear]
  simp only [disconnectAll_snd hP, hfirst]
  cases ((g.adjustPort d p Port.clear).forgetAt d.opposite p P.opposites).2 with
  | none => simp
  | some q => simp [eq_comm]

/-- The port is cleared, and a far port forgets the port as often as it is listed. -/
theorem port?_disconnectAll (hP : g.port? d p = some P) (e : Direction) (s : Slot) :
    (g.disconnectAll d p).val.1.port? e s =
      if e = d.opposite then (g.port? e s).map (Port.unlink · p)^[P.opposites.count s]
      else if s = p then some P.clear else g.port? e s := by
  rw [disconnectAll_fst hP, port?_forgetAt, port?_adjustPort]
  by_cases he : e = d
  · subst he
    simp [e.opposite_ne.symm, hP]
  · simp [Direction.eq_opposite_of_ne he, d.opposite_ne]

end Port

/-- In every state `disconnectAll` frees a port that exists. -/
theorem disconnectAll_detaches {g : Graph ν} {d : Direction} {p : Slot} {slots : List Slot}
    (hslots : g.opposites d p = .ok slots) :
    Detached g d p slots (g.disconnectAll d p).val.1 (g.disconnectAll d p).val.2 := by
  obtain ⟨P, hP, rfl⟩ : ∃ P, g.port? d p = some P ∧ P.opposites = slots := by
    unfold opposites at hslots
    cases hP : g.port d p with
    | error e => rw [hP] at hslots; cases hslots
    | ok P => rw [hP] at hslots; exact ⟨P, port_eq_ok_iff.mp hP, Except.ok.inj hslots⟩
  have hremoval := g.removal_disconnectAll d p
  have hport? := port?_disconnectAll hP
  refine ⟨hremoval.rewired, ?near, fun q => ?far, fun {e s} hnear hfar => ?other,
    fun hnear hfar => ?vertex, disconnectAll_eq_ok_iff hP, disconnectAll_eq_error_iff hP,
    fun hg => ?consistent⟩
  case near =>
    have hp := hport? d p
    rw [if_neg d.opposite_ne.symm, if_pos rfl] at hp
    rw [peers_eq_of_port? hp, Port.opposites_clear]
  case far =>
    have hq := hport? d.opposite q
    rw [if_pos rfl] at hq
    rw [dropEarliest_min]
    cases hQ : g.port? d.opposite q with
    | none =>
      rw [hQ] at hq
      rw [peers_eq_nil_of_port? hq, peers_eq_nil_of_port? hQ]
      exact (Function.iterate_fixed (List.erase_nil p) _).symm
    | some Q =>
      rw [hQ] at hq
      rw [peers_eq_of_port? hq, peers_eq_of_port? hQ, Port.opposites_iterate_unlink]
  case other =>
    rw [hport?]
    by_cases he : e = d.opposite
    · have hs : s ∉ P.opposites := fun hs => hfar ⟨he, hs⟩
      rw [if_pos he, List.count_eq_zero.mpr hs, Function.iterate_zero, Option.map_id]
      rfl
    · have hed : e = d := by
        by_contra hed
        exact he (Direction.eq_opposite_of_ne hed)
      rw [if_neg he, if_neg fun hs => hnear ⟨hed, hs⟩]
  case vertex =>
    rw [disconnectAll_fst hP, find?_forgetAt hfar, find?_adjustPort_of_ne hnear]
  case consistent =>
    have hcount (q : Slot) : P.opposites.count q = (g.peers d.opposite q).count p := by
      rw [← peers_eq_of_port? hP, hg.count_comm]
    refine ⟨(disconnectAll_eq_ok_iff hP).mpr ⟨rfl, fun q hq => ⟨?_, Nat.le_of_eq (hcount q)⟩⟩,
      fun q => ?_, hremoval.consistent hg⟩
    · exact hg.hasPort (peers_eq_of_port? hP ▸ hq)
    · rw [peers_disconnectAll hg]
      simp

/-- One of three parallel connections is known to the output only, and one of the two to the other
input to the input only. -/
def lopsided : Graph (Node .multi String) :=
  let second : NodeId := NodeId.first.next
  let g := ((Graph.empty ⟨1⟩).insert (Node.new "a" 0 1)).val.1
  let g := (g.insert (Node.new "b" 2 0)).val.1
  let g := (g.connect .outgoing ⟨.first, 0⟩ ⟨second, 0⟩).val.1
  let g := (g.connect .outgoing ⟨.first, 0⟩ ⟨second, 1⟩).val.1
  let g := (g.connect .outgoing ⟨.first, 0⟩ ⟨second, 0⟩).val.1
  let g := g.adjustPort .outgoing ⟨.first, 0⟩ (·.link ⟨second, 0⟩)
  g.adjustPort .incoming ⟨second, 1⟩ (·.link ⟨.first, 0⟩)

/-- The output is free afterwards, and the connection that only the other input knew of is left. The
answer names the third of the parallel connections, which was missing. -/
theorem disconnectAll_detaches_lopsided :
    let g := lopsided
    let second : NodeId := NodeId.first.next
    let slots : List Slot := [⟨second, 0⟩, ⟨second, 1⟩, ⟨second, 0⟩, ⟨second, 0⟩]
    let done := (g.disconnectAll .outgoing ⟨.first, 0⟩).val
    g.opposites .outgoing ⟨.first, 0⟩ = .ok slots ∧
      Detached g .outgoing ⟨.first, 0⟩ slots done.1 done.2 ∧
      done.1.peers .incoming ⟨second, 0⟩ = [] ∧
      done.1.peers .incoming ⟨second, 1⟩ = [⟨.first, 0⟩] ∧
      done.2 = .error (.inconsistentConnection (NodeId.first.output 0) (second.input 0)) := by
  intro g second slots done
  have hslots : g.opposites .outgoing ⟨.first, 0⟩ = .ok slots := by decide
  exact ⟨hslots, disconnectAll_detaches hslots, by decide, by decide, by decide⟩

end Graph

end PortGraph
