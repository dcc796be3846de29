import Mathlib.Data.List.Pairwise
import PortGraph.Proofs.Aging

/-!
# Pools of distinct graphs

In a regular pool the graphs have different identities and are bounded by their counters. Sessions
keep pools regular, so that a graph is known by its identity throughout (`Session.regular`), and all
that a session shows of a graph is that it ages (`Session.aging`): the counter does not go back, and
no identifier comes into use again. Nested sessions do not interfere with the call that they are
within, because they concern other graphs (`Pool.Regular.id_ne`).
-/

namespace PortGraph

variable {φ : Flavour} {ν : Type}

/-! ## Regular pools -/

namespace Pool

/-- Different graphs have different identities, which were all handed out before, and every graph
is bounded by its counter. -/
structure Regular (p : Pool ν) : Prop where
  distinct : (p.graphs.map Graph.id).Nodup
  issued {g : Graph ν} (hg : g ∈ p.graphs) : g.id.val < p.next.val
  bounded {g : Graph ν} (hg : g ∈ p.graphs) : g.Bounded

/-- The identity is that of a graph of the pool, or was not handed out yet. -/
def Covers (p : Pool ν) (γ : GraphId) : Prop :=
  (∃ g ∈ p.graphs, g.id = γ) ∨ p.next.val ≤ γ.val

/-- Sessions start from a regular pool. -/
theorem regular_start : (start : Pool ν).Regular where
  distinct := .nil
  issued hg := absurd hg List.not_mem_nil
  bounded hg := absurd hg List.not_mem_nil

theorem covers_of_mem {p : Pool ν} {g : Graph ν} (hg : g ∈ p.graphs) : p.Covers g.id :=
  .inl ⟨g, hg, rfl⟩

namespace Regular

variable {p : Pool ν} {c : Call φ ν} {others : List (Graph ν)}

/-- A graph is known by its identity. -/
theorem eq_of_id (hp : p.Regular) {g h : Graph ν} (hg : g ∈ p.graphs) (hh : h ∈ p.graphs)
    (hid : g.id = h.id) : g = h :=
  List.inj_on_of_nodup_map hp.distinct hg hh hid

/-! ### What a call takes and leaves -/

theorem bounded_takes (hp : p.Regular) (hc : p.Offers c others) : ∀ g ∈ c.takes, g.Bounded :=
  fun _ hg => hp.bounded (hc.mem_of_takes hg)

theorem nodup_split (hp : p.Regular) (hc : p.Offers c others) :
    (c.takes.map Graph.id ++ others.map Graph.id).Nodup := by
  rw [← List.map_append]
  exact (hc.takes.map Graph.id).nodup_iff.mp hp.distinct

/-- The graphs that are left make a regular pool. -/
theorem rest (hp : p.Regular) (hc : p.Offers c others) :
    Regular ⟨others, c.after p.next⟩ where
  distinct := (hp.nodup_split hc).of_append_right
  issued hg := Nat.lt_of_lt_of_le (hp.issued (hc.mem_of_others hg)) (c.le_after p.next)
  bounded hg := hp.bounded (hc.mem_of_others hg)

/-- A graph that is made has the next identity, which is used up by that. -/
theorem id_of_mem_born (hc : p.Offers c others) {b : Graph ν} (hb : b ∈ c.born) :
    b.id = p.next ∧ c.after p.next = p.next.next := by
  have hmade := Call.made_of_mem_born hb
  refine ⟨hc.made _ hmade, ?_⟩
  unfold Call.after
  rw [hmade]

/-- The graphs that a call starts from have identities that were handed out by then. -/
theorem lt_after (hp : p.Regular) (hc : p.Offers c others) {a : Graph ν} (ha : a ∈ c.grounds) :
    a.id.val < (c.after p.next).val := by
  rcases List.mem_append.mp ha with ha | ha
  · exact Nat.lt_of_lt_of_le (hp.issued (hc.mem_of_takes ha)) (c.le_after p.next)
  · obtain ⟨hid, hafter⟩ := id_of_mem_born hc ha
    rw [hid, hafter]
    exact Nat.lt_succ_self _

/-- They are none of those that are left, nor any made while the call takes its time. -/
theorem id_ne (hp : p.Regular) (hc : p.Offers c others) {a : Graph ν} (ha : a ∈ c.grounds)
    {γ : GraphId} (hγ : Covers ⟨others, c.after p.next⟩ γ) : a.id ≠ γ := by
  rintro rfl
  rcases hγ with ⟨g, hg, hid⟩ | hle
  · rcases List.mem_append.mp ha with ha | ha
    · have hdisjoint := List.disjoint_of_nodup_append (hp.nodup_split hc)
      exact hdisjoint (List.mem_map_of_mem ha) (List.mem_map.mpr ⟨g, hg, hid⟩)
    · have hlt := hp.issued (hc.mem_of_others hg)
      rw [hid, (id_of_mem_born hc ha).1] at hlt
      exact Nat.lt_irrefl _ hlt
  · exact Nat.lt_irrefl _ (Nat.lt_of_lt_of_le (hp.lt_after hc ha) hle)

theorem nodup_grounds (hp : p.Regular) (hc : p.Offers c others) :
    (c.grounds.map Graph.id).Nodup := by
  rw [Call.grounds, List.map_append]
  refine (hp.nodup_split hc).of_append_left.append c.nodup_born fun γ ht hb => ?_
  obtain ⟨g, hg, rfl⟩ := List.mem_map.mp ht
  obtain ⟨b, hb, hid⟩ := List.mem_map.mp hb
  have hlt := hp.issued (hc.mem_of_takes hg)
  rw [← hid, (id_of_mem_born hc hb).1] at hlt
  exact Nat.lt_irrefl _ hlt

theorem covers_of_rest (hc : p.Offers c others) {γ : GraphId}
    (hγ : Covers ⟨others, c.after p.next⟩ γ) : p.Covers γ := by
  rcases hγ with ⟨g, hg, hid⟩ | hle
  · exact .inl ⟨g, hc.mem_of_others hg, hid⟩
  · exact .inr (Nat.le_trans (c.le_after p.next) hle)

theorem covers_of_ground (hc : p.Offers c others) {a : Graph ν} (ha : a ∈ c.grounds) :
    p.Covers a.id := by
  rcases List.mem_append.mp ha with ha | ha
  · exact covers_of_mem (hc.mem_of_takes ha)
  · exact .inr (Nat.le_of_eq (congrArg GraphId.val (id_of_mem_born hc ha).1).symm)

end Regular

end Pool

/-! ## Sessions keep pools regular -/

variable [Vertex φ ν]

namespace Session

variable {p q : Pool ν} {cs : List (Call φ ν)}

/-- A session leaves a regular pool regular, and all identities there are were there before or were
handed out since. -/
theorem regular (h : Session p cs q) (hp : p.Regular) :
    q.Regular ∧ ∀ γ, q.Covers γ → p.Covers γ := by
  induction h with
  | nil => exact ⟨hp, fun _ hγ => hγ⟩
  | @call p q r cs ds c others _ hc hwithin ih ihwithin =>
    obtain ⟨hq, hcovers⟩ := ih hp
    obtain ⟨hr, hcovers'⟩ := ihwithin (hq.rest hc)
    have hids := Call.ids_leaves (hq.bounded_takes hc) (hq.nodup_grounds hc)
    have hground {g : Graph ν} (hg : g ∈ c.leaves) : ∃ a ∈ c.grounds, a.id = g.id :=
      List.mem_map.mp (hids.subset (List.mem_map_of_mem hg))
    refine ⟨⟨?_, ?_, ?_⟩, ?_⟩
    · rw [List.map_append]
      refine (hids.nodup (hq.nodup_grounds hc)).append hr.distinct fun γ hleft hright => ?_
      obtain ⟨g, hg, rfl⟩ := List.mem_map.mp hleft
      obtain ⟨h, hh, hid⟩ := List.mem_map.mp hright
      obtain ⟨a, ha, haid⟩ := hground hg
      exact hq.id_ne hc ha (hcovers' _ (.inl ⟨h, hh, hid⟩)) haid
    · intro g hg
      rcases List.mem_append.mp hg with hg | hg
      · obtain ⟨a, ha, haid⟩ := hground hg
        rw [← haid]
        exact Nat.lt_of_lt_of_le (hq.lt_after hc ha) hwithin.next_le
      · exact hr.issued hg
    · intro g hg
      rcases List.mem_append.mp hg with hg | hg
      · exact Call.all_leaves Graph.invariant_bounded hc.made (hq.bounded_takes hc) g hg
      · exact hr.bounded hg
    · intro γ hγ
      apply hcovers
      rcases hγ with ⟨g, hg, rfl⟩ | hle
      · rcases List.mem_append.mp hg with hg | hg
        · obtain ⟨a, ha, haid⟩ := hground hg
          exact haid ▸ Pool.Regular.covers_of_ground hc ha
        · exact Pool.Regular.covers_of_rest hc (hcovers' _ (Pool.covers_of_mem hg))
      · exact Pool.Regular.covers_of_rest hc (hcovers' _ (.inr hle))

end Session

/-! ## Looks -/

/-- The looks that a session gives at its graphs: those that there are at the beginning, those that
each call starts from, and those that there are in the end. -/
def Pool.looks (p : Pool ν) (cs : List (Call φ ν)) (q : Pool ν) : List (Graph ν) :=
  p.graphs ++ (cs.flatMap Call.grounds ++ q.graphs)

/-- What a session shows of a graph is that it ages. -/
structure Aging (p : Pool ν) (cs : List (Call φ ν)) (q : Pool ν) : Prop where
  ages : (p.looks cs q).Pairwise fun g h => g.id = h.id → g.Ages [] h
  covers {g : Graph ν} (hg : g ∈ p.looks cs q) : p.Covers g.id
  lt {g : Graph ν} (hg : g ∈ p.looks cs q) : g.id.val < q.next.val
  bounded {g : Graph ν} (hg : g ∈ p.looks cs q) : g.Bounded
  /-- No call takes a graph twice, or makes one that there was. -/
  distinct {c : Call φ ν} (hc : c ∈ cs) : (c.grounds.map Graph.id).Nodup

omit [Vertex φ ν] in
theorem Call.bounded_grounds {c : Call φ ν} (hbounded : ∀ g ∈ c.takes, g.Bounded) {a : Graph ν}
    (ha : a ∈ c.grounds) : a.Bounded := by
  rcases List.mem_append.mp ha with ha | ha
  · exact hbounded a ha
  · cases c with
    | new id | releaseSet g subset id =>
      rw [List.mem_singleton.mp ha]
      exact Graph.bounded_of_vertices_eq_empty rfl
    | clone g id =>
      rw [List.mem_singleton.mp ha]
      exact hbounded g (.head _)
    | _ => exact absurd ha List.not_mem_nil

/-- The graphs that a call starts from and those that it leaves. -/
def Call.ends (c : Call φ ν) : List (Graph ν) := c.grounds ++ c.leaves

section Ends

variable {c : Call φ ν} (hbounded : ∀ g ∈ c.takes, g.Bounded)

include hbounded

theorem Call.bounded_ends {n : GraphId} (hmade : ∀ id ∈ c.made, id = n) {x : Graph ν}
    (hx : x ∈ c.ends) : x.Bounded := by
  rcases List.mem_append.mp hx with hx | hx
  · exact Call.bounded_grounds hbounded hx
  · exact Call.all_leaves Graph.invariant_bounded hmade hbounded x hx

variable (hdistinct : (c.grounds.map Graph.id).Nodup)

include hdistinct

/-- Either is what became of one that the call started from. -/
theorem Call.exists_ground_of_ends {x : Graph ν} (hx : x ∈ c.ends) :
    ∃ a ∈ c.grounds, a.Ages [] x := by
  rcases List.mem_append.mp hx with hx | hx
  · exact ⟨x, hx, .refl x⟩
  · obtain ⟨a, ha, hages⟩ := exists_ground hbounded hdistinct hx
    exact ⟨a, ha, hages.forget⟩

/-- A graph ages by a call from what it was before. -/
theorem Call.pairwise_ages : c.ends.Pairwise fun g h => g.id = h.id → g.Ages [] h := by
  have distinct {gs : List (Graph ν)} (hgs : (gs.map Graph.id).Nodup) :
      gs.Pairwise fun g h => g.id = h.id → g.Ages [] h :=
    (List.pairwise_map.mp hgs).imp fun hne hid => absurd hid hne
  refine List.pairwise_append.mpr ⟨distinct hdistinct,
    distinct ((ids_leaves hbounded hdistinct).nodup hdistinct), fun g hg h hh hid => ?_⟩
  obtain ⟨a, ha, hages⟩ := exists_ground hbounded hdistinct hh
  rw [List.inj_on_of_nodup_map hdistinct hg ha (hid.trans hages.id_eq)]
  exact hages.forget

end Ends

namespace Aging

omit [Vertex φ ν] in
/-- What a call takes is looked at. -/
theorem bounded_takes {p q : Pool ν} {cs : List (Call φ ν)} (h : Aging p cs q) {c : Call φ ν}
    (hc : c ∈ cs) : ∀ g ∈ c.takes, g.Bounded := by
  intro g hg
  have hground : g ∈ cs.flatMap Call.grounds :=
    List.mem_flatMap.mpr ⟨c, hc, List.mem_append_left _ hg⟩
  exact h.bounded (List.mem_append_right _ (List.mem_append_left _ hground))

variable {p q r : Pool ν} {cs ds : List (Call φ ν)} {c : Call φ ν} {others : List (Graph ν)}

/-- What a graph hands out by a call follows the counter that the call found. -/
theorem le_of_mem_handsOut (h : Aging p cs q) (hc : c ∈ cs) {g : Graph ν} (hg : g ∈ c.takes)
    {k : NodeId} (hk : k ∈ c.handsOut g.id) : g.next ≤ k := by
  obtain ⟨a, ha, hid, hle⟩ := Call.exists_issuer (h.bounded_takes hc) (h.distinct hc) hk
  have hsame : a = g :=
    List.inj_on_of_nodup_map (h.distinct hc) ha (List.mem_append_left _ hg) hid
  exact hsame ▸ hle

omit [Vertex φ ν] in
theorem nil (hp : p.Regular) : Aging p ([] : List (Call φ ν)) p := by
  have hmem {g : Graph ν} (hg : g ∈ p.looks ([] : List (Call φ ν)) p) : g ∈ p.graphs :=
    (List.mem_append.mp hg).elim id id
  refine ⟨List.pairwise_of_forall_mem_list fun g hg h hh hid => ?_,
    fun hg => Pool.covers_of_mem (hmem hg), fun hg => hp.issued (hmem hg),
    fun hg => hp.bounded (hmem hg), fun hc => absurd hc List.not_mem_nil⟩
  rw [hp.eq_of_id (hmem hg) (hmem hh) hid]
  exact .refl h

/-! ### One call -/

section Within

variable (hq : q.Regular) (hc : q.Offers c others)
  (hwithin : Aging ⟨others, c.after q.next⟩ ds r)

include hq hc hwithin

/-- What a call starts from and what it leaves are not among the looks that the session within it
gives after its beginning. -/
theorem id_ne_of_ends {x y : Graph ν} (hx : x ∈ c.ends)
    (hy : y ∈ ds.flatMap Call.grounds ++ r.graphs) : x.id ≠ y.id := by
  obtain ⟨a, ha, hages⟩ :=
    Call.exists_ground_of_ends (hq.bounded_takes hc) (hq.nodup_grounds hc) hx
  rw [hages.id_eq]
  exact hq.id_ne hc ha (hwithin.covers (List.mem_append_right _ hy))

theorem pairwise_since :
    (ds.flatMap Call.grounds ++ (c.ends ++ r.graphs)).Pairwise
      fun g h => g.id = h.id → g.Ages [] h := by
  obtain ⟨hwithins, hends, hfuture⟩ :=
    List.pairwise_append.mp (List.pairwise_append.mp hwithin.ages).2.1
  have hcall := Call.pairwise_ages (hq.bounded_takes hc) (hq.nodup_grounds hc)
  refine List.pairwise_append.mpr ⟨hwithins, List.pairwise_append.mpr ⟨hcall, hends, ?_⟩, ?_⟩
  · intro x hx y hy hid
    exact absurd hid (id_ne_of_ends hq hc hwithin hx (List.mem_append_right _ hy))
  · intro x hx y hy hid
    rcases List.mem_append.mp hy with hy | hy
    · exact absurd hid.symm (id_ne_of_ends hq hc hwithin hy (List.mem_append_left _ hx))
    · exact hfuture x hx y hy hid

/-- Each look since the call was made shows a graph that it found, or one that is new. -/
theorem old_or_new (hqr : (c.after q.next).val ≤ r.next.val) {x : Graph ν}
    (hx : x ∈ c.ends ∨ x ∈ ds.flatMap Call.grounds ++ r.graphs) :
    (∃ o ∈ q.graphs, o.Ages [] x) ∨ q.next.val ≤ x.id.val ∧ x.id.val < r.next.val := by
  rcases hx with hx | hx
  · obtain ⟨a, ha, hages⟩ :=
      Call.exists_ground_of_ends (hq.bounded_takes hc) (hq.nodup_grounds hc) hx
    rcases List.mem_append.mp ha with ha | ha
    · exact .inl ⟨a, hc.mem_of_takes ha, hages⟩
    · obtain ⟨hid, hafter⟩ := Pool.Regular.id_of_mem_born hc ha
      rw [hages.id_eq, hid]
      rw [hafter] at hqr
      exact .inr ⟨Nat.le_refl _, hqr⟩
  · have hlook : x ∈ Pool.looks ⟨others, c.after q.next⟩ ds r := List.mem_append_right _ hx
    rcases hwithin.covers hlook with ⟨o, ho, hid⟩ | hnew
    · have hpresent := (List.pairwise_append.mp hwithin.ages).2.2
      exact .inl ⟨o, hc.mem_of_others ho, hpresent o ho x hx hid⟩
    · exact .inr ⟨Nat.le_trans (c.le_after q.next) hnew, hwithin.lt hlook⟩

end Within

theorem call (h : Aging p cs q) (hle : p.next.val ≤ q.next.val) (hq : q.Regular)
    (hc : q.Offers c others) (hwithin : Aging ⟨others, c.after q.next⟩ ds r)
    (hqr : (c.after q.next).val ≤ r.next.val) :
    Aging p (cs ++ ds ++ [c]) ⟨c.leaves ++ r.graphs, r.next⟩ := by
  -- the looks are those before the call, and those since it was made
  let before := p.graphs ++ cs.flatMap Call.grounds
  let since := ds.flatMap Call.grounds ++ (c.ends ++ r.graphs)
  have hbefore : p.looks cs q = before ++ q.graphs := (List.append_assoc _ _ _).symm
  have hlooks : p.looks (cs ++ ds ++ [c]) ⟨c.leaves ++ r.graphs, r.next⟩ = before ++ since := by
    simp [Pool.looks, Call.ends, before, since]
  have hsplit {x : Graph ν} (hx : x ∈ since) :
      x ∈ c.ends ∨ x ∈ ds.flatMap Call.grounds ++ r.graphs := by
    rw [List.mem_append, List.mem_append] at hx
    rw [List.mem_append]
    exact or_left_comm.mp hx
  have hcases {x : Graph ν} (hx : x ∈ p.looks (cs ++ ds ++ [c]) ⟨c.leaves ++ r.graphs, r.next⟩) :
      x ∈ p.looks cs q ∨ x ∈ since := by
    rw [hlooks] at hx
    rw [hbefore]
    exact (List.mem_append.mp hx).imp_left (List.mem_append_left _)
  refine ⟨?ages, fun hx => ?covers, fun hx => ?lt, fun hx => ?bounded, fun hd => ?distinct⟩
  case ages =>
    have hpast := h.ages
    rw [hbefore] at hpast
    obtain ⟨hbefores, _, hpast⟩ := List.pairwise_append.mp hpast
    rw [hlooks]
    refine List.pairwise_append.mpr ⟨hbefores, pairwise_since hq hc hwithin,
      fun x hx y hy hid => ?_⟩
    rcases old_or_new hq hc hwithin hqr (hsplit hy) with ⟨o, ho, hages⟩ | hnew
    · exact (hpast x hx o ho (hid.trans hages.id_eq)).trans hages
    · have hlt := h.lt (hbefore ▸ List.mem_append_left _ hx : x ∈ p.looks cs q)
      rw [hid] at hlt
      omega
  case covers =>
    rcases hcases hx with hx | hx
    · exact h.covers hx
    · rcases old_or_new hq hc hwithin hqr (hsplit hx) with ⟨o, ho, hages⟩ | hnew
      · rw [hages.id_eq]
        exact h.covers (hbefore ▸ List.mem_append_right _ ho)
      · exact .inr (Nat.le_trans hle hnew.1)
  case lt =>
    have hqr' := Nat.le_trans (c.le_after q.next) hqr
    rcases hcases hx with hx | hx
    · exact Nat.lt_of_lt_of_le (h.lt hx) hqr'
    · rcases old_or_new hq hc hwithin hqr (hsplit hx) with ⟨o, ho, hages⟩ | hnew
      · rw [hages.id_eq]
        exact Nat.lt_of_lt_of_le (hq.issued ho) hqr'
      · exact hnew.2
  case bounded =>
    rcases hcases hx with hx | hx
    · exact h.bounded hx
    · rcases hsplit hx with hx | hx
      · exact Call.bounded_ends (hq.bounded_takes hc) hc.made hx
      · exact hwithin.bounded (List.mem_append_right _ hx)
  case distinct =>
    rcases List.mem_append.mp hd with hd | hd
    · exact (List.mem_append.mp hd).elim h.distinct hwithin.distinct
    · rw [List.mem_singleton.mp hd]
      exact hq.nodup_grounds hc

end Aging

/-- In a session on a regular pool every graph ages. -/
theorem Session.aging {p q : Pool ν} {cs : List (Call φ ν)} (h : Session p cs q)
    (hp : p.Regular) : Aging p cs q := by
  induction h with
  | nil => exact .nil hp
  | @call p q r cs ds c others h hc hwithin ih ihwithin =>
    obtain ⟨hq, _⟩ := h.regular hp
    exact (ih hp).call h.next_le hq hc (ihwithin (hq.rest hc)) hwithin.next_le

end PortGraph
