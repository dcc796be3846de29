import PortGraph.Graph.Revision
import PortGraph.Proofs.Links

/-!
# Settling links by counting

`settle` sets the links that a vertex had against those that it records now, one by one. What comes
out of it depends on the order only in the order of the two resulting lists: of each link as many
are kept as there were and are recorded now, a loop being recorded as often as it is at the end
where it is recorded less often, and the others are lost.

For a given link, each step takes one from what is recorded of the same link and leaves all other
links alone (`settleInbound_self`, `settleInbound_of_ne`); the counts of a whole run follow by
induction. Where nothing is lost, it is also known in which order the links are kept
(`kept_settle`).
-/

namespace PortGraph

namespace Settlement

/-! ## Links of the inputs -/

/-- How many of a link of the inputs can still be kept. -/
def supply (id : NodeId) (s : Settlement) (m : Link) : Nat :=
  if m.output.node = id then min (s.inbound.count m) (s.outbound.count m) else s.inbound.count m

/-- Deciding about a link counts it once, as kept or as lost. -/
theorem count_decide_self (s : Settlement) (l : Link) (stays : Bool) :
    (s.decide l stays).kept.count l = s.kept.count l + (if stays = true then 1 else 0) ∧
      (s.decide l stays).lost.count l = s.lost.count l + (if stays = true then 0 else 1) := by
  cases stays with
  | true => exact ⟨by simp [decide], by simp [decide]⟩
  | false => exact ⟨by simp [decide], by simp [decide]⟩

/-- Deciding about a link leaves the counts of all others alone. -/
theorem count_decide_of_ne (s : Settlement) {l m : Link} (h : l ≠ m) (stays : Bool) :
    (s.decide l stays).kept.count m = s.kept.count m ∧
      (s.decide l stays).lost.count m = s.lost.count m := by
  have hsingle : [l].count m = 0 := List.count_eq_zero.mpr (by simpa using Ne.symm h)
  cases stays with
  | true => exact ⟨by simp [decide, hsingle], by simp [decide]⟩
  | false => exact ⟨by simp [decide], by simp [decide, hsingle]⟩

theorem inbound_decide (s : Settlement) (l : Link) (stays : Bool) :
    (s.decide l stays).inbound = s.inbound := by
  cases stays <;> rfl

theorem outbound_decide (s : Settlement) (l : Link) (stays : Bool) :
    (s.decide l stays).outbound = s.outbound := by
  cases stays <;> rfl

/-- A link of an input is kept if there is one to set it against, which is used up. -/
theorem settleInbound_self (id : NodeId) (s : Settlement) (l : Link) :
    (settleInbound id s l).kept.count l = s.kept.count l + min 1 (supply id s l) ∧
      (settleInbound id s l).kept.count l + (settleInbound id s l).lost.count l =
        s.kept.count l + s.lost.count l + 1 ∧
      supply id (settleInbound id s l) l = supply id s l - 1 := by
  unfold settleInbound supply
  by_cases hin : s.inbound.contains l = true
  · have hpos : 0 < s.inbound.count l := List.count_pos_iff.mpr (List.contains_iff_mem.mp hin)
    rw [if_pos hin]
    by_cases hloop : l.output.node = id
    · simp only [if_pos hloop, inbound_decide, outbound_decide, List.count_erase_self]
      obtain ⟨hkept, hlost⟩ := count_decide_self
        { s with inbound := s.inbound.erase l, outbound := s.outbound.erase l } l
        (s.outbound.contains l)
      by_cases hout : s.outbound.contains l = true
      · have hpos' : 0 < s.outbound.count l :=
          List.count_pos_iff.mpr (List.contains_iff_mem.mp hout)
        rw [if_pos hout] at hkept hlost
        simp only at hkept hlost
        refine ⟨?_, ?_, ?_⟩ <;> omega
      · have hzero : s.outbound.count l = 0 :=
          List.count_eq_zero.mpr fun h => hout (List.contains_iff_mem.mpr h)
        rw [if_neg hout] at hkept hlost
        simp only at hkept hlost
        refine ⟨?_, ?_, ?_⟩ <;> omega
    · simp only [if_neg hloop, inbound_decide, List.count_erase_self]
      obtain ⟨hkept, hlost⟩ :=
        count_decide_self { s with inbound := s.inbound.erase l } l true
      rw [if_pos rfl] at hkept hlost
      simp only at hkept hlost
      refine ⟨?_, ?_, trivial⟩ <;> omega
  · have hzero : s.inbound.count l = 0 :=
      List.count_eq_zero.mpr fun h => hin (List.contains_iff_mem.mpr h)
    rw [if_neg hin]
    simp only [inbound_decide, outbound_decide, hzero, Nat.zero_min, ite_self]
    obtain ⟨hkept, hlost⟩ := count_decide_self s l false
    rw [if_neg Bool.false_ne_true] at hkept hlost
    refine ⟨?_, ?_, trivial⟩ <;> omega

/-- Accounting for one link leaves the counts of all others alone. -/
theorem settleInbound_of_ne (id : NodeId) (s : Settlement) {l m : Link} (h : l ≠ m) :
    (settleInbound id s l).kept.count m = s.kept.count m ∧
      (settleInbound id s l).lost.count m = s.lost.count m ∧
      (settleInbound id s l).inbound.count m = s.inbound.count m ∧
      (settleInbound id s l).outbound.count m = s.outbound.count m := by
  have herase (ls : List Link) : (ls.erase l).count m = ls.count m :=
    List.count_erase_of_ne (Ne.symm h)
  unfold settleInbound
  split
  · simp only
    split
    · obtain ⟨hkept, hlost⟩ := count_decide_of_ne
        { s with inbound := s.inbound.erase l, outbound := s.outbound.erase l } h
        (s.outbound.contains l)
      rw [inbound_decide, outbound_decide]
      exact ⟨hkept, hlost, herase _, herase _⟩
    · obtain ⟨hkept, hlost⟩ :=
        count_decide_of_ne { s with inbound := s.inbound.erase l } h true
      rw [inbound_decide, outbound_decide]
      exact ⟨hkept, hlost, herase _, rfl⟩
  · obtain ⟨hkept, hlost⟩ := count_decide_of_ne s h false
    rw [inbound_decide, outbound_decide]
    exact ⟨hkept, hlost, rfl, rfl⟩

/-- Of the links that the inputs had, as many are kept as can be set against one. -/
theorem foldl_settleInbound (id : NodeId) (m : Link) (ls : List Link) (s : Settlement) :
    (ls.foldl (settleInbound id) s).kept.count m =
        s.kept.count m + min (ls.count m) (supply id s m) ∧
      (ls.foldl (settleInbound id) s).kept.count m + (ls.foldl (settleInbound id) s).lost.count m =
        s.kept.count m + s.lost.count m + ls.count m ∧
      (ls.count m = 0 → (ls.foldl (settleInbound id) s).outbound.count m = s.outbound.count m) := by
  induction ls generalizing s with
  | nil => exact ⟨by simp, by simp, fun _ => rfl⟩
  | cons l ls ih =>
    obtain ⟨hkept, htotal, hout⟩ := ih (settleInbound id s l)
    rw [List.foldl_cons, hkept, List.count_cons]
    by_cases hl : l = m
    · subst hl
      obtain ⟨hkept', htotal', hsupply⟩ := settleInbound_self id s l
      rw [hsupply] at hkept ⊢
      rw [if_pos (beq_self_eq_true l)]
      refine ⟨?_, ?_, ?_⟩
      · omega
      · omega
      · intro hzero
        omega
    · obtain ⟨hkept', hlost', hin', hout'⟩ := settleInbound_of_ne id s hl
      have hsupply : supply id (settleInbound id s l) m = supply id s m := by
        unfold supply
        rw [hin', hout']
      rw [hsupply] at hkept ⊢
      rw [if_neg (by simpa using hl)]
      refine ⟨?_, ?_, ?_⟩
      · omega
      · omega
      · intro hzero
        exact (hout hzero).trans hout'

/-! ## Links of the outputs -/

/-- A loop is passed over. -/
theorem settleOutbound_of_input {id : NodeId} {l : Link} (hl : l.input.node = id) (s : Settlement) :
    settleOutbound id s l = s := by
  unfold settleOutbound
  rw [if_pos hl]

/-- Any other link of an output is kept if there is one to set it against, which is used up. -/
theorem settleOutbound_self {id : NodeId} {l : Link} (hl : l.input.node ≠ id) (s : Settlement) :
    (settleOutbound id s l).kept.count l = s.kept.count l + min 1 (s.outbound.count l) ∧
      (settleOutbound id s l).kept.count l + (settleOutbound id s l).lost.count l =
        s.kept.count l + s.lost.count l + 1 ∧
      (settleOutbound id s l).outbound.count l = s.outbound.count l - 1 := by
  unfold settleOutbound
  rw [if_neg hl, outbound_decide]
  obtain ⟨hkept, hlost⟩ := count_decide_self { s with outbound := s.outbound.erase l } l
    (s.outbound.contains l)
  have herase : (s.outbound.erase l).count l = s.outbound.count l - 1 := List.count_erase_self
  by_cases hmem : s.outbound.contains l = true
  · have hpos : 0 < s.outbound.count l := List.count_pos_iff.mpr (List.contains_iff_mem.mp hmem)
    rw [if_pos hmem] at hkept hlost
    simp only at hkept hlost
    refine ⟨?_, ?_, herase⟩ <;> omega
  · have hzero : s.outbound.count l = 0 :=
      List.count_eq_zero.mpr fun h => hmem (List.contains_iff_mem.mpr h)
    rw [if_neg hmem] at hkept hlost
    simp only at hkept hlost
    refine ⟨?_, ?_, herase⟩ <;> omega

/-- Accounting for one link leaves the counts of all others alone. -/
theorem settleOutbound_of_ne (id : NodeId) (s : Settlement) {l m : Link} (h : l ≠ m) :
    (settleOutbound id s l).kept.count m = s.kept.count m ∧
      (settleOutbound id s l).lost.count m = s.lost.count m ∧
      (settleOutbound id s l).outbound.count m = s.outbound.count m := by
  unfold settleOutbound
  split
  · exact ⟨rfl, rfl, rfl⟩
  · obtain ⟨hkept, hlost⟩ := count_decide_of_ne { s with outbound := s.outbound.erase l } h
      (s.outbound.contains l)
    rw [outbound_decide]
    exact ⟨hkept, hlost, List.count_erase_of_ne (Ne.symm h)⟩

/-- Loops are not accounted for a second time. -/
theorem foldl_settleOutbound_of_input {id : NodeId} {m : Link} (hm : m.input.node = id)
    (ls : List Link) (s : Settlement) :
    (ls.foldl (settleOutbound id) s).kept.count m = s.kept.count m ∧
      (ls.foldl (settleOutbound id) s).lost.count m = s.lost.count m := by
  induction ls generalizing s with
  | nil => exact ⟨rfl, rfl⟩
  | cons l ls ih =>
    obtain ⟨hkept, hlost⟩ := ih (settleOutbound id s l)
    rw [List.foldl_cons, hkept, hlost]
    by_cases hl : l = m
    · rw [hl, settleOutbound_of_input hm]
      exact ⟨rfl, rfl⟩
    · obtain ⟨hkept', hlost', _⟩ := settleOutbound_of_ne id s hl
      exact ⟨hkept', hlost'⟩

/-- Of the links that the outputs had, loops apart, as many are kept as are recorded. -/
theorem foldl_settleOutbound {id : NodeId} {m : Link} (hm : m.input.node ≠ id) (ls : List Link)
    (s : Settlement) :
    (ls.foldl (settleOutbound id) s).kept.count m =
        s.kept.count m + min (ls.count m) (s.outbound.count m) ∧
      (ls.foldl (settleOutbound id) s).kept.count m +
          (ls.foldl (settleOutbound id) s).lost.count m =
        s.kept.count m + s.lost.count m + ls.count m := by
  induction ls generalizing s with
  | nil => exact ⟨by simp, by simp⟩
  | cons l ls ih =>
    obtain ⟨hkept, htotal⟩ := ih (settleOutbound id s l)
    rw [List.foldl_cons, hkept, List.count_cons]
    by_cases hl : l = m
    · subst hl
      obtain ⟨hkept', htotal', hout⟩ := settleOutbound_self hm s
      rw [hout] at hkept ⊢
      rw [if_pos (beq_self_eq_true l)]
      constructor
      · omega
      · omega
    · obtain ⟨hkept', hlost', hout⟩ := settleOutbound_of_ne id s hl
      rw [hout] at hkept ⊢
      rw [if_neg (by simpa using hl)]
      constructor
      · omega
      · omega

end Settlement

/-! ## All links -/

/-- What is kept and what is lost of a link of the inputs, loops included. -/
theorem count_settle_of_input {id : NodeId} {m : Link} (hm : m.input.node = id)
    (inbound outbound nowInbound nowOutbound : List Link) :
    (settle id inbound outbound nowInbound nowOutbound).kept.count m =
        min (inbound.count m)
          (if m.output.node = id then min (nowInbound.count m) (nowOutbound.count m)
          else nowInbound.count m) ∧
      (settle id inbound outbound nowInbound nowOutbound).kept.count m +
          (settle id inbound outbound nowInbound nowOutbound).lost.count m =
        inbound.count m := by
  obtain ⟨hkept, htotal, _⟩ := Settlement.foldl_settleInbound id m inbound
    { inbound := nowInbound, outbound := nowOutbound }
  obtain ⟨hkept', hlost'⟩ := Settlement.foldl_settleOutbound_of_input hm outbound
    (inbound.foldl (Settlement.settleInbound id)
      { inbound := nowInbound, outbound := nowOutbound })
  unfold settle
  rw [hkept', hlost']
  simp only [Settlement.supply, List.count_nil, Nat.zero_add] at hkept htotal
  exact ⟨hkept, htotal⟩

/-- What is kept and what is lost of a link of the outputs that is not one of the inputs. -/
theorem count_settle_of_not_input {id : NodeId} {m : Link} (hm : m.input.node ≠ id)
    {inbound : List Link} (hin : inbound.count m = 0)
    (outbound nowInbound nowOutbound : List Link) :
    (settle id inbound outbound nowInbound nowOutbound).kept.count m =
        min (outbound.count m) (nowOutbound.count m) ∧
      (settle id inbound outbound nowInbound nowOutbound).kept.count m +
          (settle id inbound outbound nowInbound nowOutbound).lost.count m =
        outbound.count m := by
  obtain ⟨hkept, htotal, hleft⟩ := Settlement.foldl_settleInbound id m inbound
    { inbound := nowInbound, outbound := nowOutbound }
  obtain ⟨hkept', htotal'⟩ := Settlement.foldl_settleOutbound hm outbound
    (inbound.foldl (Settlement.settleInbound id)
      { inbound := nowInbound, outbound := nowOutbound })
  rw [hin] at hkept htotal
  rw [hleft hin] at hkept'
  simp only [List.count_nil] at hkept htotal hkept'
  unfold settle
  constructor
  · omega
  · omega

/-! ## Nothing lost -/

namespace Settlement

/-- Where deciding about a link loses nothing, the link is kept, after the others. -/
theorem kept_decide {s : Settlement} {l : Link} {stays : Bool} (h : (s.decide l stays).lost = []) :
    s.lost = [] ∧ (s.decide l stays).kept = s.kept ++ [l] := by
  cases stays with
  | true => exact ⟨h, rfl⟩
  | false => exact absurd h (List.append_ne_nil_of_right_ne_nil _ (List.cons_ne_nil l []))

/-- Where accounting for a link of an input loses nothing, the link is kept. -/
theorem kept_settleInbound {id : NodeId} {s : Settlement} {l : Link}
    (h : (settleInbound id s l).lost = []) :
    s.lost = [] ∧ (settleInbound id s l).kept = s.kept ++ [l] := by
  unfold settleInbound at h ⊢
  split at h
  · next hmem =>
    simp only [if_pos hmem] at h ⊢
    split at h
    · next hloop =>
      rw [if_pos hloop]
      exact kept_decide h
    · next hloop =>
      rw [if_neg hloop]
      exact kept_decide h
  · next hmem =>
    rw [if_neg hmem]
    exact kept_decide h

/-- Where accounting for a link of an output loses nothing, the link is kept unless it is a loop,
which is passed over. -/
theorem kept_settleOutbound {id : NodeId} {s : Settlement} {l : Link}
    (h : (settleOutbound id s l).lost = []) :
    s.lost = [] ∧
      (settleOutbound id s l).kept = s.kept ++ [l].filter fun m => m.input.node ≠ id := by
  unfold settleOutbound at h ⊢
  by_cases hl : l.input.node = id
  · rw [if_pos hl] at h ⊢
    simp [h, hl]
  · rw [if_neg hl] at h ⊢
    simpa [hl] using kept_decide h

/-- Where each step that loses nothing keeps its link if it passes a test, a whole run that loses
nothing keeps the links that do, in order. -/
theorem kept_foldl {step : Settlement → Link → Settlement} {p : Link → Bool}
    (hstep : ∀ s l, (step s l).lost = [] →
      s.lost = [] ∧ (step s l).kept = s.kept ++ [l].filter p)
    {ls : List Link} {s : Settlement} (h : (ls.foldl step s).lost = []) :
    s.lost = [] ∧ (ls.foldl step s).kept = s.kept ++ ls.filter p := by
  induction ls generalizing s with
  | nil => exact ⟨h, (List.append_nil _).symm⟩
  | cons l ls ih =>
    obtain ⟨hlost, hkept⟩ := ih h
    obtain ⟨hlost', hkept'⟩ := hstep s l hlost
    refine ⟨hlost', ?_⟩
    rw [List.foldl_cons, hkept, hkept', List.append_assoc, ← List.filter_append]
    rfl

end Settlement

/-- Where no link is lost, all are kept: those of the inputs first, and then those of the outputs
but the loops. -/
theorem kept_settle {id : NodeId} {inbound outbound nowInbound nowOutbound : List Link}
    (h : (settle id inbound outbound nowInbound nowOutbound).lost = []) :
    (settle id inbound outbound nowInbound nowOutbound).kept =
      inbound ++ outbound.filter fun l => l.input.node ≠ id := by
  unfold settle at h ⊢
  obtain ⟨hlost, hkept⟩ := Settlement.kept_foldl (fun _ _ => Settlement.kept_settleOutbound) h
  have hall (s : Settlement) (l : Link) (hl : (Settlement.settleInbound id s l).lost = []) :
      s.lost = [] ∧
        (Settlement.settleInbound id s l).kept = s.kept ++ [l].filter fun _ => true :=
    Settlement.kept_settleInbound hl
  obtain ⟨_, hkept'⟩ := Settlement.kept_foldl hall hlost
  rw [hkept, hkept', List.filter_eq_self.mpr fun _ _ => rfl]
  rfl

end PortGraph
