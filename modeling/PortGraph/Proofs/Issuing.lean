import Mathlib.Data.List.Flatten
import PortGraph.Proofs.Pools

/-!
# Identifiers are handed out once

In a session every graph is known by its identity. `Accounted` says of each graph that there is in
the end from which graph it aged, by the identifiers that the calls handed out, and the same of each
graph that a call takes, by those of the calls before.

So every graph hands out its identifiers in ascending order, no identifier that was given up is
stored again, a clone goes on from the counter of its original, and no identifier for a new vertex
is ever found in use (`Session.identifiers_once`).
-/

namespace PortGraph

variable {φ : Flavour} {ν : Type} [Vertex φ ν]

/-! ## Accounts -/

/-- A member of two lists in a row is one of the first or one of the second. -/
theorem split_append {α : Type*} {xs ys as bs : List α} {a : α} (h : xs ++ ys = as ++ a :: bs) :
    (∃ bs', xs = as ++ a :: bs') ∨ ∃ as', as = xs ++ as' ∧ ys = as' ++ a :: bs := by
  rcases List.append_eq_append_iff.mp h with ⟨as', has, hys⟩ | ⟨bs', hxs, hbs⟩
  · exact .inr ⟨as', has, hys⟩
  · rcases List.cons_eq_append_iff.mp hbs with ⟨rfl, rfl⟩ | ⟨bs', rfl, _⟩
    · exact .inr ⟨[], by rw [hxs, List.append_nil, List.append_nil], rfl⟩
    · exact .inl ⟨bs', hxs⟩

/-- The identifiers that graph `γ` handed out by the calls, in order. -/
def handedOut (γ : GraphId) (cs : List (Call φ ν)) : List NodeId := cs.flatMap (·.handsOut γ)

theorem handedOut_append (γ : GraphId) (cs ds : List (Call φ ν)) :
    handedOut γ (cs ++ ds) = handedOut γ cs ++ handedOut γ ds :=
  List.flatMap_append

theorem handedOut_singleton (γ : GraphId) (c : Call φ ν) : handedOut γ [c] = c.handsOut γ :=
  List.flatMap_singleton _ _

/-- The graphs that there are at the beginning of a session and those that are made in it, as they
start out. -/
def Pool.origins (p : Pool ν) (cs : List (Call φ ν)) : List (Graph ν) :=
  p.graphs ++ cs.flatMap Call.born

omit [Vertex φ ν] in
theorem Pool.mem_origins_append {p : Pool ν} {cs ds : List (Call φ ν)} {b : Graph ν} :
    b ∈ p.origins (cs ++ ds) ↔ b ∈ p.origins cs ∨ b ∈ ds.flatMap Call.born := by
  simp [origins, or_assoc]

omit [Vertex φ ν] in
theorem Pool.origins_subset (p : Pool ν) {cs ds : List (Call φ ν)} (h : cs.Sublist ds) :
    p.origins cs ⊆ p.origins ds :=
  ((h.flatMap _).append_left p.graphs).subset

/-- Every identifier that is handed out by the calls `cs` has its place in the history of a graph
that the session starts from. -/
structure Accounted (p : Pool ν) (cs : List (Call φ ν)) (q : Pool ν) : Prop where
  /-- The graphs that are made have identities of their own. -/
  born {b : Graph ν} (hb : b ∈ cs.flatMap Call.born) : p.next.val ≤ b.id.val ∧ b.id.val < q.next.val
  nodup_born : ((cs.flatMap Call.born).map Graph.id).Nodup
  ascending (γ : GraphId) : (handedOut γ cs).Pairwise (· < ·)
  issuer {γ : GraphId} {k : NodeId} (hk : k ∈ handedOut γ cs) :
    ∃ b ∈ p.origins cs, b.id = γ ∧ b.next ≤ k
  /-- The graphs that there are in the end aged by what they handed out. -/
  aged {h : Graph ν} (hh : h ∈ q.graphs) : ∃ b ∈ p.origins cs, b.Ages (handedOut h.id cs) h
  /-- So did those that a call takes, by what they had handed out by then. -/
  taken {as bs : List (Call φ ν)} {c : Call φ ν} (hc : cs = as ++ c :: bs) {g : Graph ν}
    (hg : g ∈ c.takes) : ∃ b ∈ p.origins as, b.Ages (handedOut g.id as) g

namespace Accounted

variable {p q r : Pool ν} {cs ds : List (Call φ ν)} {c : Call φ ν} {others : List (Graph ν)}

theorem nil (p : Pool ν) : Accounted p ([] : List (Call φ ν)) p where
  born hb := absurd hb List.not_mem_nil
  nodup_born := .nil
  ascending _ := .nil
  issuer hk := absurd hk List.not_mem_nil
  aged {h} hh := ⟨h, List.mem_append_left _ hh, .refl h⟩
  taken hc := absurd hc (by simp)

/-- Whoever hands out identifiers has an identity that is known. -/
theorem covers (h : Accounted p cs q) {γ : GraphId} {k : NodeId} (hk : k ∈ handedOut γ cs) :
    p.Covers γ := by
  obtain ⟨b, hb, rfl, _⟩ := h.issuer hk
  rcases List.mem_append.mp hb with hb | hb
  · exact Pool.covers_of_mem hb
  · exact .inr (h.born hb).1

/-- An identity that was not handed out yet hands out nothing. -/
theorem handedOut_eq_nil (h : Accounted p cs q) (hp : p.Regular)
    (hle : p.next.val ≤ q.next.val) {γ : GraphId} (hγ : q.next.val ≤ γ.val) :
    handedOut γ cs = [] := by
  apply List.eq_nil_iff_forall_not_mem.mpr
  intro k hk
  obtain ⟨b, hb, rfl, _⟩ := h.issuer hk
  rcases List.mem_append.mp hb with hb | hb
  · have hlt := hp.issued hb
    omega
  · have hlt := (h.born hb).2
    omega

/-- A graph that there is in the end, or that is made later, aged by what it handed out. -/
theorem exists_origin (h : Accounted p cs q) (hp : p.Regular) (hle : p.next.val ≤ q.next.val)
    {es : List (Call φ ν)} {x : Graph ν}
    (hx : x ∈ q.graphs ∨ q.next.val ≤ x.id.val ∧ x ∈ es.flatMap Call.born) :
    ∃ b ∈ p.origins (cs ++ es), b.Ages (handedOut x.id cs) x := by
  rcases hx with hx | ⟨hlater, hx⟩
  · obtain ⟨b, hb, hages⟩ := h.aged hx
    exact ⟨b, Pool.mem_origins_append.mpr (.inl hb), hages⟩
  · rw [h.handedOut_eq_nil hp hle hlater]
    exact ⟨x, Pool.mem_origins_append.mpr (.inr hx), .refl x⟩

/-- The graphs that there ever were have different identities. -/
theorem nodup_origins (h : Accounted p cs q) (hp : p.Regular) :
    ((p.origins cs).map Graph.id).Nodup := by
  rw [Pool.origins, List.map_append]
  refine hp.distinct.append h.nodup_born fun γ hγ hγ' => ?_
  obtain ⟨g, hg, rfl⟩ := List.mem_map.mp hγ
  obtain ⟨b, hb, hid⟩ := List.mem_map.mp hγ'
  have hlt := hp.issued hg
  rw [← hid] at hlt
  exact Nat.lt_irrefl _ (Nat.lt_of_lt_of_le hlt (h.born hb).1)

/-- What a graph handed out by the time a call takes it is below its counter. -/
theorem lt_of_taken (h : Accounted p cs q) {as bs : List (Call φ ν)} (hc : cs = as ++ c :: bs)
    {g : Graph ν} (hg : g ∈ c.takes) {k : NodeId} (hk : k ∈ handedOut g.id as) : k < g.next := by
  obtain ⟨_, _, hages⟩ := h.taken hc hg
  exact (hages.between hk).2

theorem lt_of_aged (h : Accounted p cs q) {g : Graph ν} (hg : g ∈ q.graphs) {k : NodeId}
    (hk : k ∈ handedOut g.id cs) : k < g.next := by
  obtain ⟨_, _, hages⟩ := h.aged hg
  exact (hages.between hk).2

/-- All that a clone hands out follows the counter of its original. -/
theorem le_of_clone (h : Accounted p cs q) (hp : p.Regular) {g : Graph ν} {γ : GraphId}
    (hc : Call.clone g γ ∈ cs) {l : NodeId} (hl : l ∈ handedOut γ cs) : g.next ≤ l := by
  have hborn : ({ g with id := γ } : Graph ν) ∈ p.origins cs :=
    List.mem_append_right _ (List.mem_flatMap.mpr ⟨_, hc, .head _⟩)
  obtain ⟨b, hb, hid, hbl⟩ := h.issuer hl
  obtain rfl := List.inj_on_of_nodup_map (h.nodup_origins hp) hb hborn hid
  exact hbl

/-! ### One call -/

/-- While a call takes its time, the graphs that it started from hand out nothing else. -/
theorem handedOut_within (hq : q.Regular) (hc : q.Offers c others)
    (hwithin : Accounted ⟨others, c.after q.next⟩ ds r) {a : Graph ν} (ha : a ∈ c.grounds) :
    handedOut a.id ds = [] := by
  apply List.eq_nil_iff_forall_not_mem.mpr
  intro k hk
  exact hq.id_ne hc ha (hwithin.covers hk) rfl

/-- The graphs that it leaves hand out nothing by the call. -/
theorem handsOut_elsewhere (hq : q.Regular) (hc : q.Offers c others) {γ : GraphId}
    (hγ : Pool.Covers ⟨others, c.after q.next⟩ γ) : c.handsOut γ = [] := by
  apply List.eq_nil_iff_forall_not_mem.mpr
  intro k hk
  obtain ⟨a, ha, hid, _⟩ := Call.exists_issuer (hq.bounded_takes hc) (hq.nodup_grounds hc) hk
  exact hq.id_ne hc ha hγ hid

/-- What the call starts from aged by what was handed out before. -/
theorem origin_of_ground (h : Accounted p cs q) (hp : p.Regular) (hle : p.next.val ≤ q.next.val)
    (hc : q.Offers c others) (ds : List (Call φ ν)) {a : Graph ν} (ha : a ∈ c.grounds) :
    ∃ b ∈ p.origins (cs ++ ds ++ [c]), b.Ages (handedOut a.id cs) a := by
  rw [List.append_assoc]
  refine h.exists_origin hp hle ?_
  rcases List.mem_append.mp ha with ha | ha
  · exact .inl (hc.mem_of_takes ha)
  · have hid := (Pool.Regular.id_of_mem_born hc ha).1
    have hborn : a ∈ (ds ++ [c]).flatMap Call.born :=
      List.mem_flatMap.mpr ⟨c, List.mem_append_right ds (.head _), ha⟩
    exact .inr ⟨Nat.le_of_eq (congrArg GraphId.val hid).symm, hborn⟩

/-- So did what the session within the call starts from, or what its first calls make. -/
theorem origin_of_within (h : Accounted p cs q) (hp : p.Regular) (hle : p.next.val ≤ q.next.val)
    (hc : q.Offers c others) (hwithin : Accounted ⟨others, c.after q.next⟩ ds r)
    {es : List (Call φ ν)} (hes : es.Sublist ds) {x : Graph ν}
    (hx : x ∈ Pool.origins ⟨others, c.after q.next⟩ es) :
    ∃ b ∈ p.origins (cs ++ es), b.Ages (handedOut x.id cs) x := by
  refine h.exists_origin hp hle ?_
  rcases List.mem_append.mp hx with hx | hx
  · exact .inl (hc.mem_of_others hx)
  · have hafter := (hwithin.born ((hes.flatMap _).subset hx)).1
    exact .inr ⟨Nat.le_trans (c.le_after q.next) hafter, hx⟩

theorem born_call (h : Accounted p cs q) (hle : p.next.val ≤ q.next.val) (hc : q.Offers c others)
    (hwithin : Accounted ⟨others, c.after q.next⟩ ds r) (hqr : (c.after q.next).val ≤ r.next.val)
    {b : Graph ν} (hb : b ∈ (cs ++ ds ++ [c]).flatMap Call.born) :
    p.next.val ≤ b.id.val ∧ b.id.val < r.next.val := by
  have hstep := c.le_after q.next
  rw [List.flatMap_append, List.flatMap_append, List.flatMap_singleton, List.mem_append,
    List.mem_append] at hb
  rcases hb with (hb | hb) | hb
  · have hbetween := h.born hb
    omega
  · have hbetween := hwithin.born hb
    simp only at hbetween
    omega
  · obtain ⟨hid, hafter⟩ := Pool.Regular.id_of_mem_born hc hb
    have hlt : q.next.val < q.next.next.val := Nat.lt_succ_self _
    rw [hafter] at hqr
    rw [hid]
    omega

theorem nodup_born_call (h : Accounted p cs q) (hc : q.Offers c others)
    (hwithin : Accounted ⟨others, c.after q.next⟩ ds r) :
    (((cs ++ ds ++ [c]).flatMap Call.born).map Graph.id).Nodup := by
  have hstep := c.le_after q.next
  have hearlier {γ : GraphId} (hγ : γ ∈ (cs.flatMap Call.born).map Graph.id) :
      γ.val < q.next.val := by
    obtain ⟨b, hb, rfl⟩ := List.mem_map.mp hγ
    exact (h.born hb).2
  have hlater {γ : GraphId} (hγ : γ ∈ (ds.flatMap Call.born).map Graph.id) :
      (c.after q.next).val ≤ γ.val := by
    obtain ⟨b, hb, rfl⟩ := List.mem_map.mp hγ
    exact (hwithin.born hb).1
  rw [List.flatMap_append, List.flatMap_append, List.flatMap_singleton, List.map_append,
    List.map_append]
  refine (h.nodup_born.append hwithin.nodup_born fun γ hγ hγ' => ?_).append
    c.nodup_born fun γ hγ hγ' => ?_
  · have hlt := hearlier hγ
    have hle := hlater hγ'
    omega
  · obtain ⟨b, hb, rfl⟩ := List.mem_map.mp hγ'
    obtain ⟨hid, hafter⟩ := Pool.Regular.id_of_mem_born hc hb
    rw [hid] at hγ
    rcases List.mem_append.mp hγ with hγ | hγ
    · exact Nat.lt_irrefl _ (hearlier hγ)
    · have hle := hlater hγ
      rw [hafter] at hle
      exact Nat.not_succ_le_self _ hle

section Call

variable (h : Accounted p cs q) (hp : p.Regular) (hle : p.next.val ≤ q.next.val) (hq : q.Regular)
  (hc : q.Offers c others) (hwithin : Accounted ⟨others, c.after q.next⟩ ds r)

include h hp hle hq hc hwithin

theorem ascending_call (γ : GraphId) : (handedOut γ (cs ++ ds ++ [c])).Pairwise (· < ·) := by
  rw [handedOut_append, handedOut_append, handedOut_singleton]
  refine List.pairwise_append.mpr ⟨List.pairwise_append.mpr ⟨h.ascending γ, hwithin.ascending γ,
    fun k hk l hl => ?_⟩,
    Call.ascending_handsOut (hq.bounded_takes hc) (hq.nodup_grounds hc) γ, fun k hk l hl => ?_⟩
  · obtain ⟨x, hx, rfl, hxl⟩ := hwithin.issuer hl
    obtain ⟨b, _, hages⟩ := h.origin_of_within hp hle hc hwithin (.refl ds) hx
    exact Nat.lt_of_lt_of_le (hages.between hk).2 hxl
  · obtain ⟨a, ha, rfl, hal⟩ :=
      Call.exists_issuer (hq.bounded_takes hc) (hq.nodup_grounds hc) hl
    rw [handedOut_within hq hc hwithin ha, List.append_nil] at hk
    obtain ⟨b, _, hages⟩ := h.origin_of_ground hp hle hc ds ha
    exact Nat.lt_of_lt_of_le (hages.between hk).2 hal

theorem issuer_call {γ : GraphId} {k : NodeId} (hk : k ∈ handedOut γ (cs ++ ds ++ [c])) :
    ∃ b ∈ p.origins (cs ++ ds ++ [c]), b.id = γ ∧ b.next ≤ k := by
  rw [handedOut_append, handedOut_append, handedOut_singleton, List.mem_append,
    List.mem_append] at hk
  rcases hk with (hk | hk) | hk
  · obtain ⟨b, hb, hid, hbk⟩ := h.issuer hk
    exact ⟨b, p.origins_subset (by simp) hb, hid, hbk⟩
  · obtain ⟨x, hx, rfl, hxk⟩ := hwithin.issuer hk
    obtain ⟨b, hb, hages⟩ := h.origin_of_within hp hle hc hwithin (.refl ds) hx
    exact ⟨b, Pool.mem_origins_append.mpr (.inl hb), hages.id_eq.symm,
      Nat.le_trans hages.next_le hxk⟩
  · obtain ⟨a, ha, rfl, hak⟩ :=
      Call.exists_issuer (hq.bounded_takes hc) (hq.nodup_grounds hc) hk
    obtain ⟨b, hb, hages⟩ := h.origin_of_ground hp hle hc ds ha
    exact ⟨b, hb, hages.id_eq.symm, Nat.le_trans hages.next_le hak⟩

theorem aged_call (hcovers : ∀ γ, r.Covers γ → Pool.Covers ⟨others, c.after q.next⟩ γ)
    {g : Graph ν} (hg : g ∈ c.leaves ++ r.graphs) :
    ∃ b ∈ p.origins (cs ++ ds ++ [c]), b.Ages (handedOut g.id (cs ++ ds ++ [c])) g := by
  rw [handedOut_append, handedOut_append, handedOut_singleton]
  rcases List.mem_append.mp hg with hg | hg
  · obtain ⟨a, ha, hages⟩ :=
      Call.exists_ground (hq.bounded_takes hc) (hq.nodup_grounds hc) hg
    obtain ⟨b, hb, hbefore⟩ := h.origin_of_ground hp hle hc ds ha
    rw [hages.id_eq, handedOut_within hq hc hwithin ha, List.append_nil]
    exact ⟨b, hb, hbefore.trans hages⟩
  · obtain ⟨x, hx, hages⟩ := hwithin.aged hg
    obtain ⟨b, hb, hbefore⟩ := h.origin_of_within hp hle hc hwithin (.refl ds) hx
    rw [handsOut_elsewhere hq hc (hcovers _ (Pool.covers_of_mem hg)), List.append_nil]
    rw [← hages.id_eq] at hbefore
    exact ⟨b, Pool.mem_origins_append.mpr (.inl hb), hbefore.trans hages⟩

/-- The call takes its graphs before the session within it begins, and returns when that is over. -/
theorem taken_call {as bs : List (Call φ ν)} {d : Call φ ν} (hd : cs ++ ds ++ [c] = as ++ d :: bs)
    {g : Graph ν} (hg : g ∈ d.takes) : ∃ b ∈ p.origins as, b.Ages (handedOut g.id as) g := by
  rw [List.append_assoc] at hd
  rcases split_append hd with ⟨bs', hcs⟩ | ⟨as', rfl, hrest⟩
  · exact h.taken hcs hg
  rcases split_append hrest with ⟨bs', hds⟩ | ⟨es, rfl, hlast⟩
  · obtain ⟨x, hx, hages⟩ := hwithin.taken hds hg
    have has : as'.Sublist ds := hds ▸ List.sublist_append_left as' _
    obtain ⟨b, hb, hbefore⟩ := h.origin_of_within hp hle hc hwithin has hx
    rw [← hages.id_eq] at hbefore
    rw [handedOut_append]
    exact ⟨b, hb, hbefore.trans hages⟩
  · obtain ⟨rfl, hcd⟩ : es = [] ∧ d :: bs = [c] := by
      rcases List.cons_eq_append_iff.mp hlast with hes | ⟨es', _, hnil⟩
      · exact hes
      · simp at hnil
    obtain ⟨rfl, rfl⟩ := List.cons_eq_cons.mp hcd
    obtain ⟨b, hb, hages⟩ := h.aged (hc.mem_of_takes hg)
    rw [List.append_nil]
    rw [handedOut_append, handedOut_within hq hc hwithin (List.mem_append_left _ hg),
      List.append_nil]
    exact ⟨b, Pool.mem_origins_append.mpr (.inl hb), hages⟩

/-- A call adds to the accounts what it hands out itself, after all that is handed out while it
takes its time. -/
theorem call (hqr : (c.after q.next).val ≤ r.next.val)
    (hcovers : ∀ γ, r.Covers γ → Pool.Covers ⟨others, c.after q.next⟩ γ) :
    Accounted p (cs ++ ds ++ [c]) ⟨c.leaves ++ r.graphs, r.next⟩ where
  born := h.born_call hle hc hwithin hqr
  nodup_born := h.nodup_born_call hc hwithin
  ascending := h.ascending_call hp hle hq hc hwithin
  issuer := h.issuer_call hp hle hq hc hwithin
  aged := h.aged_call hp hle hq hc hwithin hcovers
  taken := h.taken_call hp hle hq hc hwithin

end Call

end Accounted

/-! ## No identifier is found in use -/

/-- On graphs that are bounded by their counters the identifier for a new vertex is free. -/
theorem Call.error?_ne_conflictingId {c : Call φ ν} (hbounded : ∀ g ∈ c.takes, g.Bounded)
    (k : NodeId) : c.error? ≠ some (.conflictingId k) := by
  intro herror
  cases c with
  | insert g v =>
    have hanswer := Outcome.error?_answer.mp herror
    rw [Graph.insert_snd (hbounded g (.head _))] at hanswer
    cases hanswer
  | insertCopy g v =>
    have hanswer := Outcome.error?_answer.mp herror
    rw [Graph.insertCopy, Graph.insert_snd (hbounded g (.head _))] at hanswer
    cases hanswer
  | connect | link | disconnect | disconnectAll =>
    obtain ⟨e, _, he⟩ := Outcome.error?_connection.mp herror
    cases he
  | modify g id f => cases Graph.modify_error (Outcome.error?_answer.mp herror)
  | copyInto source dest =>
    have hanswer := Outcome.error?_answer.mp herror
    obtain ⟨h, names, _, _, hok | ⟨e, hconnect⟩⟩ :=
      source.enrolled_copyInto (hbounded dest (.tail _ (.head _)))
    · rw [hok] at hanswer
      cases hanswer
    · rw [hconnect] at hanswer
      cases hanswer
  | moveInto source dest =>
    have hanswer := Outcome.error?_answer.mp herror
    obtain ⟨h, names, hval, _⟩ := source.moveInto_eq (hbounded dest (.tail _ (.head _)))
    rw [hval] at hanswer
    cases hanswer
  | releaseInto source subset dest =>
    obtain ⟨_, he⟩ := Graph.releaseInto_error (hbounded dest (.tail _ (.head _)))
      (Outcome.error?_answer.mp herror)
    cases he
  | releaseSet source subset id =>
    obtain ⟨_, he⟩ := Graph.releaseInto_error (Graph.bounded_of_vertices_eq_empty rfl)
      (Outcome.error?_answer.mp herror)
    cases he
  | _ => cases herror

namespace Session

variable {p q : Pool ν} {cs : List (Call φ ν)}

/-- All that a session hands out is accounted for. -/
theorem accounted (h : Session p cs q) (hp : p.Regular) : Accounted p cs q := by
  induction h with
  | nil => exact .nil _
  | @call p q r cs ds c others h hc hwithin ih ihwithin =>
    obtain ⟨hq, _⟩ := h.regular hp
    obtain ⟨_, hcovers⟩ := hwithin.regular (hq.rest hc)
    exact (ih hp).call hp h.next_le hq hc (ihwithin (hq.rest hc)) hwithin.next_le hcovers

end Session

/-! ## Every identifier once -/

/-- The calls `cs`, by which the pool `p` becomes `q`, hand out every identifier once. -/
structure IssuesOnce (p : Pool ν) (cs : List (Call φ ν)) (q : Pool ν) : Prop where
  /-- The graphs that there ever were, and those that there are, are known by their identities. -/
  distinct_origins : ((p.origins cs).map Graph.id).Nodup
  distinct : (q.graphs.map Graph.id).Nodup
  /-- At every look, stored identifiers are below the counter. -/
  bounded {g : Graph ν} (hg : g ∈ p.looks cs q) : g.Bounded
  /-- From look to look, the counter does not go back, and identifiers that were given up are not
  stored again. -/
  ages : (p.looks cs q).Pairwise fun g h => g.id = h.id →
    g.next ≤ h.next ∧ ∀ k, k < g.next → h.contains k = true → g.contains k = true
  /-- A graph hands out its identifiers in ascending order. -/
  ascending (γ : GraphId) : (handedOut γ cs).Pairwise (· < ·)
  /-- They were not used before: whenever a call takes a graph, its counter is past all identifiers
  that it handed out by then. -/
  used {as bs : List (Call φ ν)} {c : Call φ ν} (hc : cs = as ++ c :: bs) {g : Graph ν}
    (hg : g ∈ c.takes) {k : NodeId} (hk : k ∈ handedOut g.id as) : k < g.next
  /-- Those that the call lets it hand out follow its counter, and in the end the counter is past
  them too. -/
  fresh {c : Call φ ν} (hc : c ∈ cs) {g : Graph ν} (hg : g ∈ c.takes) {k : NodeId}
    (hk : k ∈ c.handsOut g.id) : g.next ≤ k
  past {h : Graph ν} (hh : h ∈ q.graphs) {k : NodeId} (hk : k ∈ handedOut h.id cs) : k < h.next
  /-- No call finds an identifier for a new vertex in use. -/
  unopposed {c : Call φ ν} (hc : c ∈ cs) (k : NodeId) : c.error? ≠ some (.conflictingId k)
  /-- A clone starts with the counter of its original and hands out none of the identifiers that
  were used by then. -/
  clone {as bs : List (Call φ ν)} {g : Graph ν} {γ : GraphId}
    (hc : cs = as ++ Call.clone g γ :: bs) : (g.clone γ).val.next = g.next ∧
      ∀ l ∈ handedOut γ cs, g.next ≤ l ∧ ∀ k ∈ handedOut g.id as, k < l

/-- A graph of which the first vertex was erased. -/
def worn : Graph (Node .multi Unit) :=
  let g := ((Graph.empty .first).insert (Node.new () 0 0)).val.1
  ((g.insert (Node.new () 0 0)).val.1.erase .first).val.1

theorem bounded_worn : worn.Bounded := by
  have hempty : (Graph.empty .first : Graph (Node .multi Unit)).Bounded :=
    Graph.bounded_of_vertices_eq_empty rfl
  exact (Graph.remnant_erase _ _).bounded ((hempty.insert _).insert _)

/-- The graph is cloned. While the vertex that is left is revised, the clone receives another; then
all vertices of the clone are moved to where they came from. -/
def handover : List (Call .multi (Node .multi Unit)) :=
  let clone := (worn.clone GraphId.first.next).val
  let extended := (clone.insert (Node.new () 0 0)).val.1
  [.clone worn GraphId.first.next, .insert clone (Node.new () 0 0),
    .modify worn NodeId.first.next id, .moveInto extended worn]

namespace Session

variable {p q : Pool ν} {cs : List (Call φ ν)}

/-- Whatever a session on different graphs does, in every graph the identifiers stay below a counter
that does not go back, those that are handed out ascend, and none that was given up comes into use
again. -/
theorem identifiers_once (hp : p.Regular) (h : Session p cs q) : IssuesOnce p cs q := by
  have haccounted := h.accounted hp
  have haging := h.aging hp
  refine ⟨haccounted.nodup_origins hp, (h.regular hp).1.distinct, haging.bounded, ?ages,
    haccounted.ascending, haccounted.lt_of_taken, haging.le_of_mem_handsOut,
    haccounted.lt_of_aged, ?unopposed, ?clone⟩
  case ages =>
    refine haging.ages.imp fun hages hid => ?_
    exact ⟨(hages hid).next_le, fun k hlt hk => (hages hid).stored hk hlt⟩
  case unopposed =>
    intro c hc k
    exact Call.error?_ne_conflictingId (haging.bounded_takes hc) k
  case clone =>
    intro as bs g γ hc
    have hnext : (g.clone γ).val.next = g.next := by
      rw [Graph.val_clone]
      exact (Graph.refitted_connectAll _ _).next_eq
    refine ⟨hnext, fun l hl => ?_⟩
    have hle := haccounted.le_of_clone hp (hc ▸ List.mem_append_right as (.head bs)) hl
    exact ⟨hle, fun k hk => Nat.lt_of_lt_of_le (haccounted.lt_of_taken hc (.head _) hk) hle⟩

/-- Graph and clone go on from the same counter, each by itself. -/
theorem identifiers_once_handover : ∃ q,
    Pool.Regular ⟨[worn], GraphId.first.next⟩ ∧
      Session ⟨[worn], GraphId.first.next⟩ handover q ∧
      IssuesOnce ⟨[worn], GraphId.first.next⟩ handover q ∧
      (handedOut .first handover).map NodeId.val = [3, 4] ∧
      (handedOut GraphId.first.next handover).map NodeId.val = [3] := by
  have hregular : Pool.Regular ⟨[worn], GraphId.first.next⟩ := by
    refine ⟨by decide, fun hg => ?_, fun hg => ?_⟩ <;> rw [List.mem_singleton.mp hg]
    · decide
    · exact bounded_worn
  let clone := (worn.clone GraphId.first.next).val
  let v : Node .multi Unit := Node.new () 0 0
  have hcloned : Pool.Offers ⟨[worn], GraphId.first.next⟩
      (.clone worn GraphId.first.next : Call .multi _) [] :=
    ⟨.refl _, fun _ hid => by cases hid; rfl⟩
  have hrevised : Pool.Offers ⟨[worn, clone], GraphId.first.next.next⟩
      (.modify worn NodeId.first.next id : Call .multi _) [clone] := ⟨.refl _, nofun⟩
  have hextended : Pool.Offers ⟨[clone], GraphId.first.next.next⟩
      (.insert clone v : Call .multi _) [] := ⟨.refl _, nofun⟩
  have hmoved : Pool.Offers ⟨[worn, (clone.insert v).val.1], GraphId.first.next.next⟩
      (.moveInto (clone.insert v).val.1 worn : Call .multi _) [] := ⟨.swap _ _ _, nofun⟩
  have hsession := ((((nil _).step hcloned).call hrevised ((nil _).step hextended)).step hmoved)
  exact ⟨_, hregular, hsession, identifiers_once hregular hsession, by decide, by decide⟩

end Session

end PortGraph
