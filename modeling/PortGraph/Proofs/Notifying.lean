import Mathlib.Logic.Relation
import PortGraph.Proofs.Fates
import PortGraph.Proofs.Refusing

/-!
# Notifications alternate

In every world that can come about, the entries of a diary alternate, beginning with a membership.
The last of them is where the vertex is, and each membership was where the vertex was when it was
told (`World.Recorded`): this is so because of the ways in which diaries go on.

That the diaries of vertices that are found are orderly says nothing of those that are not. But no
vertex gets lost, and nobody is told of anything but of joining and leaving
(`World.notifications_alternate`).
-/

namespace PortGraph

namespace World

variable {φ : Flavour} {ν : Type} [Vertex φ ν]

/-! ## Histories -/

omit [Vertex φ ν] in
/-- However a diary goes on, it stays orderly. -/
theorem Follows.orderly {x : World ν} {diary : List (Option Membership)}
    {place : Option Membership} (hx : ∀ {diary place}, x.Has diary place → Orderly diary place)
    (h : x.Follows diary place) : Orderly diary place := by
  cases h with
  | kept h => exact hx h
  | made => exact .nil
  | began m => exact Orderly.nil.append rfl
  | joined h m => exact (hx h).append rfl
  | left h => exact (hx h).append rfl
  | moved h m' => exact ((hx h).append rfl).append rfl

open Relation

/-- Wherever the diary tells of a membership, the vertex was there at some time between `start` and
`x`, and had noted just this. -/
def Vouched (x : World ν) (diary : List (Option Membership)) : Prop :=
  ∀ past m, past ++ [some m] <+: diary →
    ∃ y : World ν, ReflTransGen Step start y ∧ ReflTransGen Step y x ∧
      y.Has (past ++ [some m]) (some m)

namespace Vouched

variable {x y : World ν} {diary : List (Option Membership)}

theorem step (h : x.Vouched diary) (hxy : Step x y) : y.Vouched diary := fun past m hpast => by
  obtain ⟨w, hw, hwx, hplace⟩ := h past m hpast
  exact ⟨w, hw, hwx.tail hxy, hplace⟩

theorem nil (x : World ν) : x.Vouched [] := fun past m hpast => by simp at hpast

/-- That a vertex leaves is no news of its whereabouts. -/
theorem leave (h : x.Vouched diary) : x.Vouched (diary ++ [none]) := fun past m hpast => by
  rcases List.prefix_concat_iff.mp hpast with heq | hpast
  · simp at heq
  · exact h past m hpast

/-- A vertex that is where it was told vouches for it. -/
theorem join (h : x.Vouched diary) (hx : ReflTransGen Step start x) {m : Membership}
    (hplace : x.Has (diary ++ [some m]) (some m)) : x.Vouched (diary ++ [some m]) := by
  intro past m' hpast
  rcases List.prefix_concat_iff.mp hpast with heq | hpast
  · obtain ⟨rfl, hm⟩ := List.append_inj' heq rfl
    cases hm
    exact ⟨x, hx, .refl, hplace⟩
  · exact h past m' hpast

end Vouched

/-- What the diaries of a world that can come about are like. -/
structure Recorded (x : World ν) : Prop where
  bounded : x.Bounded
  orderly {diary : List (Option Membership)} {place : Option Membership} (h : x.Has diary place) :
    Orderly diary place
  vouched {diary : List (Option Membership)} {place : Option Membership} (h : x.Has diary place) :
    x.Vouched diary
  closed {diary : List (Option Membership)} (h : diary ∈ x.closed) :
    Alternating diary ∧ x.Vouched diary

theorem recorded {x : World ν} (hx : ReflTransGen Step start x) : Recorded x := by
  induction hx with
  | refl =>
    refine ⟨fun _ h => absurd h List.not_mem_nil, fun h => ?_, fun h => ?_,
      fun h => absurd h List.not_mem_nil⟩
    all_goals
      cases h with
      | stored hg => exact absurd hg List.not_mem_nil
      | loose hv => exact absurd hv List.not_mem_nil
  | @tail x y hx hxy ih =>
    have hy := hx.tail hxy
    refine ⟨hxy.bounded ih.bounded, fun h => (hxy.follows ih.bounded h).orderly ih.orderly,
      fun h => ?_, fun h => ?_⟩
    · cases hxy.follows ih.bounded h with
      | kept h => exact (ih.vouched h).step hxy
      | made => exact .nil y
      | began m => exact (Vouched.nil y).join hy h
      | joined hold m => exact ((ih.vouched hold).step hxy).join hy h
      | left hold => exact ((ih.vouched hold).step hxy).leave
      | moved hold m' => exact ((ih.vouched hold).step hxy).leave.join hy h
    · rcases hxy.closed h with h | ⟨place, h⟩
      · exact ⟨(ih.closed h).1, (ih.closed h).2.step hxy⟩
      · exact ⟨(ih.orderly h).alternating, (ih.vouched h).step hxy⟩

/-! ## Notifications -/

/-- No vertex is told anything: whatever vertices did when they join or leave, it would make no
difference. -/
def Unheard {α : Type} (op : Vertex φ (Diarist ν) → α) : Prop :=
  ∀ (join : Option Membership → Diarist ν → Journaled (Diarist ν))
    (leave : Diarist ν → Journaled (Diarist ν)),
    op (Vertex.withHooks inferInstance join leave) = op inferInstance

/-- Far ends forget a port without being told. -/
theorem forgetAt_withHooks (join : Option Membership → Diarist ν → Journaled (Diarist ν))
    (leave : Diarist ν → Journaled (Diarist ν)) (g : Graph (Diarist ν)) (d : Direction)
    (near : Slot) (fars : List Slot) :
    @Graph.forgetAt φ (Diarist ν) (Vertex.withHooks inferInstance join leave) g d near fars =
      g.forgetAt d near fars := by
  induction fars generalizing g with
  | nil => rfl
  | cons far rest ih =>
    have hrest := ih (g.adjustPort d far (·.unlink near))
    simp only [Graph.forgetAt]
    rw [← hrest]
    rfl

theorem unheard_disconnectAll (g : Graph (Diarist ν)) (d : Direction) (p : Slot) :
    Unheard (@Graph.disconnectAll φ (Diarist ν) · g d p) := by
  intro join leave
  let noted : Vertex φ (Diarist ν) := inferInstance
  let hooked : Vertex φ (Diarist ν) := .withHooks noted join leave
  have hopposites : @Graph.opposites φ _ hooked g d p = @Graph.opposites φ _ noted g d p := rfl
  have hforget fars : @Graph.forgetAt φ _ hooked (@Graph.adjustPort φ _ hooked g d p Port.clear)
      d.opposite p fars = @Graph.forgetAt φ _ noted
        (@Graph.adjustPort φ _ noted g d p Port.clear) d.opposite p fars :=
    forgetAt_withHooks join leave (@Graph.adjustPort φ _ noted g d p Port.clear) d.opposite p fars
  change @Graph.disconnectAll φ _ hooked g d p = @Graph.disconnectAll φ _ noted g d p
  simp only [Graph.disconnectAll]
  rw [hopposites]
  cases @Graph.opposites φ _ noted g d p with
  | error e => rfl
  | ok fars =>
    simp only
    rw [hforget]

/-- What vertices are told, up to the world `x`. -/
structure Notified (x : World ν) : Prop where
  /-- A vertex was told to join and to leave in turn, and it is stored in a graph exactly if it was
  told to join last, namely where it was told. -/
  orderly {diary : List (Option Membership)} {place : Option Membership} (h : x.Has diary place) :
    Orderly diary place
  /-- A vertex that was destroyed was told to join and to leave in turn. -/
  closed {diary : List (Option Membership)} (h : diary ∈ x.closed) : Alternating diary
  /-- When a vertex was told to join, it was then stored as it was told. -/
  vouched {diary past : List (Option Membership)} {m : Membership}
    (h : (∃ place, x.Has diary place) ∨ diary ∈ x.closed) (hpast : past ++ [some m] <+: diary) :
    ∃ y : World ν, ReflTransGen Step start y ∧ ReflTransGen Step y x ∧
      y.Has (past ++ [some m]) (some m)
  /-- Whatever happens next, no vertex gets lost. It is told nothing and stays, or what it is told
  goes with where it then is, or it is destroyed, for good. -/
  fate {y : World ν} (hxy : Step x y) {diary : List (Option Membership)}
    {place : Option Membership} (h : x.Has diary place) : y.Fate diary place
  closed_prefix {y : World ν} (hxy : Step x y) : x.closed <+: y.closed
  /-- Work on a graph destroys none but those that it is to destroy. -/
  spares (g : Graph (Diarist ν)) : Spares g
  /-- Nobody is told of connections, nor that a vertex is destroyed. -/
  connect (g : Graph (Diarist ν)) (d : Direction) (p q : Slot) :
    Unheard (@Graph.connect φ (Diarist ν) · g d p q)
  disconnect (g : Graph (Diarist ν)) (d : Direction) (p q : Slot) :
    Unheard (@Graph.disconnect φ (Diarist ν) · g d p q)
  disconnectAll (g : Graph (Diarist ν)) (d : Direction) (p : Slot) :
    Unheard (@Graph.disconnectAll φ (Diarist ν) · g d p)
  erase (g : Graph (Diarist ν)) (id : NodeId) : Unheard (@Graph.erase φ (Diarist ν) · g id)
  retain {σ : Type} (g : Graph (Diarist ν)) (keep : NodeId → Diarist ν → StateM σ Bool) (s : σ) :
    Unheard (@Graph.retain φ (Diarist ν) · σ g keep s)
  /-- Requests that cannot be met are refused. -/
  erase_absent {g : Graph (Diarist ν)} {id : NodeId} (hid : ¬g.contains id = true) :
    Graph.Refused (@Graph.erase φ (Diarist ν) · g id) Prod.fst g
  release_absent {g : Graph (Diarist ν)} {id : NodeId} (hid : ¬g.contains id = true) :
    Graph.Refused (@Graph.release φ (Diarist ν) · g id) Prod.fst g
  releaseInto_error {g h : Graph (Diarist ν)} (hh : h ∈ x.graphs) {subset : List NodeId}
    {e : GraphError} (he : (g.releaseInto subset h).val.answer = .error e) :
    Graph.Refused (@Graph.releaseInto φ (Diarist ν) · g subset h) (fun t => (t.source, t.dest))
      (g, h)

/-- In every world that can come about, vertices are told to join and to leave in turn, of the place
where they are, and of nothing else, and no vertex gets lost. -/
theorem notifications_alternate {x : World ν} (hx : ReflTransGen Step start x) : Notified x where
  orderly h := (recorded hx).orderly h
  closed h := ((recorded hx).closed h).1
  vouched h := h.elim (fun ⟨_, h⟩ => (recorded hx).vouched h _ _)
    fun h => ((recorded hx).closed h).2 _ _
  fate hxy _ _ h := hxy.fate (recorded hx).bounded h
  closed_prefix hxy := hxy.closed_prefix
  spares := World.spares
  connect _ _ _ _ _ _ := rfl
  disconnect _ _ _ _ _ _ := rfl
  disconnectAll := unheard_disconnectAll
  erase _ _ _ _ := rfl
  retain _ _ _ _ _ := rfl
  erase_absent hid := Graph.refused_erase (by rw [Graph.erase, if_neg hid]; rfl)
  release_absent hid := Graph.refused_release (by rw [Graph.release, if_neg hid]; rfl)
  releaseInto_error {g h} hh subset e he := by
    by_cases hsub : ∀ k ∈ subset, g.contains k = true
    · obtain ⟨dest, names, hval, _⟩ := g.enrolled_releaseInto ((recorded hx).bounded h hh) hsub
      rw [hval] at he
      cases he
    · obtain ⟨k, _, _, _, hval⟩ := Graph.releaseInto_of_missing h hsub
      exact Graph.refused_releaseInto (k := k) (by rw [hval])

/-- A vertex is inserted in the first graph and moved to the second. It is released, and inserted
there once more. The first graph was cloned in the meantime, and the copy destroyed. At last the
second graph is taken apart. -/
theorem notifications_alternate_wanderer : ∃ x : World (Node .single Unit),
    ReflTransGen Step start x ∧ Notified x ∧ x.graphs.length = 2 ∧
      x.loose.map Diarist.diary =
        [[some ⟨⟨1⟩, .first⟩, none, some ⟨⟨2⟩, .first⟩, none,
          some ⟨⟨2⟩, NodeId.first.next⟩, none]] ∧
      x.closed = [[some ⟨⟨3⟩, .first⟩]] := by
  have hgraphs : ReflTransGen Step (start : World (Node .single Unit)) _ :=
    (ReflTransGen.single (.new _)).tail (.new _)
  have hstored := (hgraphs.tail (.construct _ (Node.new () 1 1))).tail
    (.insert (i := 0) rfl (rfl : _ = [] ++ _ :: []))
  have hmoved := (hstored.tail (.clone (i := 0) rfl)).tail
    (.moveInto (i := 0) (j := 1) rfl rfl (by decide))
  have hreleased := (hmoved.tail (.release (i := 1) rfl .first)).tail
    (.work (i := 2) rfl (.erase .first))
  have hworld := (hreleased.tail (.insert (i := 1) rfl (rfl : _ = [] ++ _ :: []))).tail
    (.dissolve (i := 1) rfl)
  exact ⟨_, hworld, notifications_alternate hworld, by decide, by decide, by decide⟩

end World

end PortGraph
