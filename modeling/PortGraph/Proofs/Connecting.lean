import PortGraph.Proofs.Consistency
import PortGraph.Proofs.Links

/-!
# Making and removing connections

A connection is made by `join` and removed by `part`, at both ends at once. `peers_join` and
`peers_part` say what this does to the lists of opposites: a new opposite comes last, the earliest
entry for an old one goes. `connect` joins exactly when both ports exist and have room
(`Admits`), and `disconnect` parts exactly when both ports record the connection (`Links`);
otherwise the graph stays as it is. All that can come of the two is listed in `ConnectOutcome` and
`DisconnectOutcome`, by what the two ends say to it.

`Removal g h ls` says that `h` is `g` without the connections `ls`, as far as `g` has them. A
removal keeps a graph consistent, whatever is removed, and removals follow each other
(`Removal.trans`).
-/

namespace PortGraph

/-! ## Checks at one end -/

namespace Port

variable {φ : Flavour}

/-- A port can take a new connection if it is a multiple port or is free. -/
theorem checkLink_eq_ok_true_iff {p : Port φ} {d : Direction} {this other : Slot} :
    p.checkLink d this other = .ok true ↔ φ = .multi ∨ p.opposites = [] := by
  obtain ⟨offset, opposites, hlen⟩ := p
  cases φ with
  | multi => simp [checkLink]
  | single =>
    cases opposites with
    | nil => simp [checkLink]
    | cons current rest =>
      by_cases hc : current = other <;> simp [checkLink, hc]

/-- A port is found connected already if it is single and connected to the other one. -/
theorem checkLink_eq_ok_false_iff {p : Port φ} {d : Direction} {this other : Slot} :
    p.checkLink d this other = .ok false ↔ φ = .single ∧ other ∈ p.opposites := by
  obtain ⟨offset, opposites, hlen⟩ := p
  cases φ with
  | multi => simp [checkLink]
  | single =>
    rcases opposites with _ | ⟨current, _ | ⟨another, rest⟩⟩
    · simp [checkLink]
    · by_cases hc : current = other
      · simp [checkLink, hc]
      · simp [checkLink, hc, Ne.symm hc]
    · exact absurd (hlen rfl) (by simp)

/-- A port that can be disconnected from another records it. -/
theorem checkUnlink_eq_ok_true_iff {p : Port φ} {d : Direction} {this other : Slot} :
    p.checkUnlink d this other = .ok true ↔ other ∈ p.opposites := by
  obtain ⟨offset, opposites, hlen⟩ := p
  cases φ with
  | multi => simp [checkUnlink]
  | single =>
    have hle : opposites.length ≤ 1 := hlen rfl
    match opposites, hle with
    | [], _ => simp [checkUnlink]
    | [current], _ =>
      by_cases hc : current = other
      · simp [checkUnlink, hc]
      · simp [checkUnlink, hc, Ne.symm hc]

end Port

/-! ## Lists -/

/-- A sublist that holds everything of one kind and nothing else is a filter. -/
theorem eq_filter_of_sublist {α : Type} [DecidableEq α] {xs ys : List α} {p : α → Bool}
    (h : xs.Sublist ys) (hkeep : ∀ a, p a = true → xs.count a = ys.count a)
    (hdrop : ∀ a, p a = false → a ∉ xs) : xs = ys.filter p := by
  have hxs : xs.filter p = xs := by
    apply List.filter_eq_self.mpr
    intro a ha
    cases hpa : p a with
    | true => rfl
    | false => exact absurd ha (hdrop a hpa)
  have hsub : xs.Sublist (ys.filter p) := hxs ▸ h.filter p
  refine hsub.eq_of_length (List.Perm.length_eq (List.perm_iff_count.mpr fun a => ?_))
  cases hpa : p a with
  | true => rw [List.count_filter hpa, hkeep a hpa]
  | false =>
    rw [List.count_eq_zero.mpr (hdrop a hpa), eq_comm, List.count_eq_zero, List.mem_filter]
    rintro ⟨_, ha⟩
    rw [hpa] at ha
    cases ha

/-- What holds of all still does where one is replaced, if it holds of the new one. -/
theorem forall_mem_set {α : Type} {P : α → Prop} {as : List α} (h : ∀ a ∈ as, P a) (i : Nat) {b : α}
    (hb : P b) : ∀ a ∈ as.set i b, P a := by
  intro a ha
  rcases List.mem_or_eq_of_mem_set ha with hmem | rfl
  · exact h a hmem
  · exact hb

/-- So it is where one is added. -/
theorem forall_mem_concat {α : Type} {P : α → Prop} {as : List α} (h : ∀ a ∈ as, P a) {b : α}
    (hb : P b) : ∀ a ∈ as ++ [b], P a :=
  List.forall_mem_append.mpr ⟨h, List.forall_mem_singleton.mpr hb⟩

namespace Graph

variable {φ : Flavour} {ν : Type} [Vertex φ ν] [LawfulPorts φ ν]

/-! ## Changes at one end -/

/-- The opposites listed after one port was changed, where the change `f` of the port is the change
`F` of its list. -/
theorem peers_adjustPort (g : Graph ν) (d e : Direction) (s t : Slot) {f : Port φ → Port φ}
    {F : List Slot → List Slot} (hnone : g.port? d s = none → F [] = [])
    (hsome : ∀ p, g.port? d s = some p → (f p).opposites = F p.opposites) :
    (g.adjustPort d s f).peers e t = if e = d ∧ t = s then F (g.peers e t) else g.peers e t := by
  by_cases h : e = d ∧ t = s
  · obtain ⟨rfl, rfl⟩ := h
    rw [peers, port?_adjustPort]
    cases hp : g.port? e t with
    | none => simp [peers_eq_nil_of_port? hp, hnone hp]
    | some p => simp [peers_eq_of_port? hp, hsome p hp]
  · rw [if_neg h]
    refine peers_congr ?_
    rw [port?_adjustPort, if_neg h]

/-- Forgetting a connection at one end drops its earliest entry there. -/
theorem peers_adjustPort_unlink (g : Graph ν) (d e : Direction) (s t x : Slot) :
    (g.adjustPort d s (·.unlink x)).peers e t =
      if e = d ∧ t = s then (g.peers e t).erase x else g.peers e t :=
  g.peers_adjustPort d e s t (F := (·.erase x)) (fun _ => rfl) fun _ _ => rfl

/-- Clearing a port empties its list. -/
theorem peers_adjustPort_clear (g : Graph ν) (d e : Direction) (s t : Slot) :
    (g.adjustPort d s Port.clear).peers e t = if e = d ∧ t = s then [] else g.peers e t :=
  g.peers_adjustPort d e s t (F := fun _ => []) (fun _ => rfl) fun _ _ => rfl

/-- Recording a connection at a port with room for it adds the last entry there. -/
theorem peers_adjustPort_link (g : Graph ν) (d e : Direction) (s t x : Slot)
    (hport : g.HasPort d s) (hroom : φ = .multi ∨ g.peers d s = []) :
    (g.adjustPort d s (·.link x)).peers e t =
      if e = d ∧ t = s then g.peers e t ++ [x] else g.peers e t := by
  refine g.peers_adjustPort d e s t (F := (· ++ [x])) (fun hnone => ?_) fun p hp => ?_
  · obtain ⟨p, hp⟩ := hport
    rw [hnone] at hp
    cases hp
  · rw [peers_eq_of_port? hp] at hroom
    exact Port.opposites_link hroom

/-! ## Changes at both ends -/

/-- Both ports exist and can take another connection. -/
def Admits (g : Graph ν) (l : Link) : Prop :=
  ∀ d, g.HasPort d (l.side d) ∧ (φ = .multi ∨ g.peers d (l.side d) = [])

/-- Both ports record the connection. -/
def Links (g : Graph ν) (l : Link) : Prop :=
  ∀ d, l.side d.opposite ∈ g.peers d (l.side d)

theorem rewired_join (g : Graph ν) (d : Direction) (p q : Slot) : Rewired g (g.join d p q) :=
  (g.rewired_adjustPort d p fun P => P.offset_link q).trans
    (rewired_adjustPort _ d.opposite q fun Q => Q.offset_link p)

theorem rewired_part (g : Graph ν) (d : Direction) (p q : Slot) : Rewired g (g.part d p q) :=
  (g.rewired_adjustPort d p fun P => P.offset_unlink q).trans
    (rewired_adjustPort _ d.opposite q fun Q => Q.offset_unlink p)

/-- A new connection comes last in the lists of its two ports. -/
theorem peers_join {g : Graph ν} {d : Direction} {p q : Slot} (h : g.Admits (.between d p q))
    (e : Direction) (s : Slot) :
    (g.join d p q).peers e s = g.peers e s ++ Link.farEnds e s [.between d p q] := by
  have hp := h d
  have hq := h d.opposite
  rw [Link.side_between] at hp
  rw [Link.side_opposite_between] at hq
  have hd : d ≠ d.opposite := d.opposite_ne.symm
  have hne : ¬(d.opposite = d ∧ q = p) := fun h => hd h.1.symm
  -- the first change does not reach the port of the second
  have hport : (g.adjustPort d p (·.link q)).HasPort d.opposite q :=
    (g.rewired_adjustPort d p fun P => P.offset_link q).hasPort_iff.mpr hq.1
  have hroom : φ = .multi ∨ (g.adjustPort d p (·.link q)).peers d.opposite q = [] := by
    rw [peers_adjustPort_link _ _ _ _ _ _ hp.1 hp.2, if_neg hne]
    exact hq.2
  rw [join, peers_adjustPort_link _ _ _ _ _ _ hport hroom,
    peers_adjustPort_link _ _ _ _ _ _ hp.1 hp.2, Link.farEnds_cons, Link.farEnds_nil]
  by_cases he : e = d
  · subst he
    by_cases hs : s = p
    · simp [hd, hs]
    · simp [hd, hs, Ne.symm hs]
  · have he' := Direction.eq_opposite_of_ne he
    subst he'
    by_cases hs : s = q
    · simp [d.opposite_ne, hs]
    · simp [d.opposite_ne, hs, Ne.symm hs]

/-- Removing a connection drops the earliest entry for it in the lists of its two ports. -/
theorem peers_part (g : Graph ν) (d : Direction) (p q : Slot) (e : Direction) (s : Slot) :
    (g.part d p q).peers e s =
      if s = (Link.between d p q).side e then
        (g.peers e s).erase ((Link.between d p q).side e.opposite)
      else g.peers e s := by
  have hd : d ≠ d.opposite := d.opposite_ne.symm
  rw [part, peers_adjustPort_unlink, peers_adjustPort_unlink]
  by_cases he : e = d
  · subst he
    simp [hd]
  · have he' := Direction.eq_opposite_of_ne he
    subst he'
    simp [d.opposite_ne]

/-! ## Connecting -/

section Checks

omit [LawfulPorts φ ν]

variable {g : Graph ν} {d : Direction} {p q s t : Slot}

/-- An answer that does not come from looking for the port comes from the port. -/
theorem bind_port_eq_iff {β : Type} {f : Port φ → Except ConnectError β}
    {r : Except ConnectError β} (hr : ∀ e, r = .error e → g.port d s ≠ .error e) :
    (g.port d s).bind f = r ↔ ∃ P, g.port? d s = some P ∧ f P = r := by
  cases hP : g.port d s with
  | error e =>
    constructor
    · rintro rfl
      exact absurd hP (hr e rfl)
    · rintro ⟨P, hport, _⟩
      rw [port_eq_ok_iff.mpr hport] at hP
      cases hP
  | ok P =>
    rw [port_eq_ok_iff] at hP
    simp only [hP, Option.some.injEq, exists_eq_left']
    rfl

theorem bind_port_eq_ok_iff {β : Type} {f : Port φ → Except ConnectError β} {x : β} :
    (g.port d s).bind f = .ok x ↔ ∃ P, g.port? d s = some P ∧ f P = .ok x :=
  bind_port_eq_iff fun _ he => by cases he

/-- What the port of direction `d` at `s` says to a connection to `t`: whether it would be new, or
why it cannot be. -/
def linkCheck (g : Graph ν) (d : Direction) (s t : Slot) : Except ConnectError Bool :=
  (g.port d s).bind fun P => P.checkLink d s t

/-- An end that has nothing to object has a port there. -/
theorem linkCheck_eq_ok_iff {x : Bool} :
    g.linkCheck d s t = .ok x ↔ ∃ P, g.port? d s = some P ∧ P.checkLink d s t = .ok x :=
  bind_port_eq_ok_iff

/-- A connection is welcome at a port with room for it. -/
theorem linkCheck_eq_ok_true_iff :
    g.linkCheck d s t = .ok true ↔ g.HasPort d s ∧ (φ = .multi ∨ g.peers d s = []) := by
  rw [linkCheck_eq_ok_iff]
  constructor
  · rintro ⟨P, hP, hcheck⟩
    rw [peers_eq_of_port? hP]
    exact ⟨⟨P, hP⟩, Port.checkLink_eq_ok_true_iff.mp hcheck⟩
  · rintro ⟨⟨P, hP⟩, hroom⟩
    rw [peers_eq_of_port? hP] at hroom
    exact ⟨P, hP, Port.checkLink_eq_ok_true_iff.mpr hroom⟩

/-- A connection is there already at a single port that lists its far end. -/
theorem linkCheck_eq_ok_false_iff :
    g.linkCheck d s t = .ok false ↔ φ = .single ∧ t ∈ g.peers d s := by
  rw [linkCheck_eq_ok_iff]
  constructor
  · rintro ⟨P, hP, hcheck⟩
    rw [peers_eq_of_port? hP]
    exact Port.checkLink_eq_ok_false_iff.mp hcheck
  · rintro ⟨hφ, ht⟩
    obtain ⟨P, hP⟩ := hasPort_of_mem_peers ht
    rw [peers_eq_of_port? hP] at ht
    exact ⟨P, hP, Port.checkLink_eq_ok_false_iff.mpr ⟨hφ, ht⟩⟩

/-- Two ports can be connected if both ends welcome it. -/
theorem admits_between_iff : g.Admits (.between d p q) ↔
    g.linkCheck d p q = .ok true ∧ g.linkCheck d.opposite q p = .ok true := by
  rw [linkCheck_eq_ok_true_iff, linkCheck_eq_ok_true_iff]
  constructor
  · intro h
    have hp := h d
    have hq := h d.opposite
    rw [Link.side_between] at hp
    rw [Link.side_opposite_between] at hq
    exact ⟨hp, hq⟩
  · rintro ⟨hp, hq⟩
    refine Direction.forall_of_opposite d ?_ ?_
    · rwa [Link.side_between]
    · rwa [Link.side_opposite_between]

/-- What comes of connecting `p` to `q`, by what the two ends say to it. -/
inductive ConnectOutcome (g : Graph ν) (d : Direction) (p q : Slot) :
    Journaled (Graph ν × Except ConnectError Bool) → Prop where
  | near {e : ConnectError} (hp : g.linkCheck d p q = .error e) :
    ConnectOutcome g d p q (pure (g, .error e))
  | far {e : ConnectError} (hq : g.linkCheck d.opposite q p = .error e) :
    ConnectOutcome g d p q (pure (g, .error e))
  | joined (hp : g.linkCheck d p q = .ok true) (hq : g.linkCheck d.opposite q p = .ok true) :
    ConnectOutcome g d p q do
      Journaled.report (.connected g.id (p.at d) (q.at d.opposite))
      return (g.join d p q, .ok true)
  | found (hp : g.linkCheck d p q = .ok false) (hq : g.linkCheck d.opposite q p = .ok false) :
    ConnectOutcome g d p q (pure (g, .ok false))
  | mismatch {x : Bool} (hp : g.linkCheck d p q = .ok x)
    (hq : g.linkCheck d.opposite q p = .ok !x) :
    ConnectOutcome g d p q do
      Journaled.report (.connectMismatch (p.at d) (q.at d.opposite))
      return (g, .error (.inconsistentConnection (p.at d) (q.at d.opposite)))

/-- Nothing else comes of it. -/
theorem connect_outcome (g : Graph ν) (d : Direction) (p q : Slot) :
    ConnectOutcome g d p q (g.connect d p q) := by
  rw [connect]
  generalize hp : (g.port d p).bind (fun r => r.checkLink d p q) = near
  generalize hq : (g.port d.opposite q).bind (fun r => r.checkLink d.opposite q p) = far
  rcases near with e | x
  · exact .near hp
  rcases far with e | y
  · cases x <;> exact .far hq
  cases x <;> cases y
  · exact .found hp hq
  · exact .mismatch hp hq
  · exact .mismatch hp hq
  · exact .joined hp hq

/-- Ports that can take another connection are connected. -/
theorem connect_of_admits (h : g.Admits (.between d p q)) :
    (g.connect d p q).val = (g.join d p q, .ok true) := by
  obtain ⟨hp, hq⟩ := admits_between_iff.mp h
  unfold linkCheck at hp hq
  rw [connect, hp, hq]
  rfl

/-- Ports that cannot take another connection are left as they are. -/
theorem connect_of_not_admits (h : ¬g.Admits (.between d p q)) :
    (g.connect d p q).val.1 = g ∧ (g.connect d p q).val.2 ≠ .ok true := by
  have houtcome := g.connect_outcome d p q
  generalize g.connect d p q = c at houtcome ⊢
  cases houtcome with
  | joined hp hq => exact absurd (admits_between_iff.mpr ⟨hp, hq⟩) h
  | near | far | found | mismatch => exact ⟨rfl, nofun⟩

end Checks

/-- Connecting only rewires a graph. -/
theorem rewired_connect (g : Graph ν) (d : Direction) (p q : Slot) :
    Rewired g (g.connect d p q).val.1 := by
  by_cases h : g.Admits (.between d p q)
  · rw [connect_of_admits h]
    exact g.rewired_join d p q
  · rw [(connect_of_not_admits h).1]
    exact .refl g

/-- Connecting keeps a graph consistent: a new connection is counted at both ends. -/
theorem Consistent.connect {g : Graph ν} (hg : g.Consistent) (d : Direction) (p q : Slot) :
    (g.connect d p q).val.1.Consistent := by
  by_cases h : g.Admits (.between d p q)
  · rw [connect_of_admits h]
    apply consistent_iff.mpr
    intro e s t
    rw [peers_join h, peers_join h, List.count_append, List.count_append, Link.count_farEnds,
      Link.count_farEnds, hg.count_comm, Link.between_opposite]
  · rw [(connect_of_not_admits h).1]
    exact hg

/-! ## Disconnecting -/

section Checks

omit [LawfulPorts φ ν]

/-- What the port of direction `d` at `s` says to the removal of its connection to `t`: whether it
has one, or why it cannot be asked. -/
def unlinkCheck (g : Graph ν) (d : Direction) (s t : Slot) : Except ConnectError Bool :=
  (g.port d s).bind fun P => P.checkUnlink d s t

/-- Whether the port of direction `d` at `s`, at the far end of a connection, lists `t`. -/
def farCheck (g : Graph ν) (d : Direction) (s t : Slot) : Except ConnectError Bool :=
  (g.opposites d s).map (·.contains t)

variable {g : Graph ν} {d : Direction} {p q s t : Slot} {x : Bool}

/-- An end that can be asked about a connection answers as its list says. -/
theorem unlinkCheck_answers (h : g.unlinkCheck d s t = .ok x) : x = true ↔ t ∈ g.peers d s := by
  obtain ⟨P, hP, hcheck⟩ := bind_port_eq_ok_iff.mp h
  rw [peers_eq_of_port? hP, ← Port.checkUnlink_eq_ok_true_iff (d := d), hcheck, Except.ok.injEq]

theorem farCheck_eq_ok_iff : g.farCheck d s t = .ok x ↔
    ∃ P, g.port d s = .ok P ∧ P.opposites.contains t = x := by
  unfold farCheck opposites
  cases g.port d s with
  | error e => simp [Except.map]
  | ok P => simp [Except.map]

theorem farCheck_answers (h : g.farCheck d s t = .ok x) : x = true ↔ t ∈ g.peers d s := by
  obtain ⟨P, hP, rfl⟩ := farCheck_eq_ok_iff.mp h
  rw [peers_eq_of_port? (port_eq_ok_iff.mp hP), List.contains_iff_mem]

/-- Both ports record the connection if each lists the other. -/
theorem links_between_iff :
    g.Links (.between d p q) ↔ q ∈ g.peers d p ∧ p ∈ g.peers d.opposite q := by
  constructor
  · intro h
    have hp := h d
    have hq := h d.opposite
    rw [Link.side_between, Link.side_opposite_between] at hp
    rw [Direction.opposite_opposite, Link.side_between, Link.side_opposite_between] at hq
    exact ⟨hp, hq⟩
  · rintro ⟨hp, hq⟩
    refine Direction.forall_of_opposite d ?_ ?_
    · rwa [Link.side_between, Link.side_opposite_between]
    · rwa [Direction.opposite_opposite, Link.side_between, Link.side_opposite_between]

/-- What comes of disconnecting `p` from `q`, by what the two ends say to it. -/
inductive DisconnectOutcome (g : Graph ν) (d : Direction) (p q : Slot) :
    Journaled (Graph ν × Except ConnectError Bool) → Prop where
  | near {e : ConnectError} (hp : g.unlinkCheck d p q = .error e) :
    DisconnectOutcome g d p q (pure (g, .error e))
  | far {x : Bool} {e : ConnectError} (hp : g.unlinkCheck d p q = .ok x)
    (hq : g.farCheck d.opposite q p = .error e) : DisconnectOutcome g d p q (pure (g, .error e))
  | parted (hp : g.unlinkCheck d p q = .ok true) (hq : g.farCheck d.opposite q p = .ok true) :
    DisconnectOutcome g d p q do
      Journaled.report (.disconnected g.id (p.at d) (q.at d.opposite))
      return (g.part d p q, .ok true)
  | unrelated (hp : g.unlinkCheck d p q = .ok false)
    (hq : g.farCheck d.opposite q p = .ok false) : DisconnectOutcome g d p q (pure (g, .ok false))
  | mismatch {x : Bool} (hp : g.unlinkCheck d p q = .ok x)
    (hq : g.farCheck d.opposite q p = .ok !x) :
    DisconnectOutcome g d p q do
      Journaled.report (.disconnectMismatch (p.at d) (q.at d.opposite))
      return (g, .error (.inconsistentConnection (p.at d) (q.at d.opposite)))

/-- Nothing else comes of it. -/
theorem disconnect_outcome (g : Graph ν) (d : Direction) (p q : Slot) :
    DisconnectOutcome g d p q (g.disconnect d p q) := by
  rw [disconnect]
  generalize hp : (g.port d p).bind (fun r => r.checkUnlink d p q) = near
  generalize hq : (g.opposites d.opposite q).map (·.contains p) = far
  rcases near with e | x
  · exact .near hp
  rcases far with e | y
  · cases x <;> exact .far hp hq
  cases x <;> cases y
  · exact .unrelated hp hq
  · exact .mismatch hp hq
  · exact .mismatch hp hq
  · exact .parted hp hq

/-- Ports that record each other are disconnected. -/
theorem disconnect_of_links (h : g.Links (.between d p q)) :
    (g.disconnect d p q).val = (g.part d p q, .ok true) := by
  obtain ⟨hp, hq⟩ := links_between_iff.mp h
  obtain ⟨P, hP⟩ := hasPort_of_mem_peers hp
  obtain ⟨Q, hQ⟩ := hasPort_of_mem_peers hq
  have hnear : g.unlinkCheck d p q = .ok true := by
    rw [peers_eq_of_port? hP] at hp
    exact bind_port_eq_ok_iff.mpr ⟨P, hP, Port.checkUnlink_eq_ok_true_iff.mpr hp⟩
  have hfar : g.farCheck d.opposite q p = .ok true := by
    rw [peers_eq_of_port? hQ] at hq
    exact farCheck_eq_ok_iff.mpr ⟨Q, port_eq_ok_iff.mpr hQ, List.contains_iff_mem.mpr hq⟩
  unfold unlinkCheck at hnear
  unfold farCheck at hfar
  rw [disconnect, hnear, hfar]
  rfl

/-- Ports that do not record each other are left as they are. -/
theorem disconnect_of_not_links (h : ¬g.Links (.between d p q)) :
    (g.disconnect d p q).val.1 = g ∧ (g.disconnect d p q).val.2 ≠ .ok true := by
  have houtcome := g.disconnect_outcome d p q
  generalize g.disconnect d p q = c at houtcome ⊢
  cases houtcome with
  | parted hp hq =>
    have hlinks := links_between_iff.mpr
      ⟨(unlinkCheck_answers hp).mp rfl, (farCheck_answers hq).mp rfl⟩
    exact absurd hlinks h
  | near | far | unrelated | mismatch => exact ⟨rfl, nofun⟩

end Checks

/-! ## Removals -/

/-- `h` is `g` without the connections `ls`, as far as `g` has them. Of each list of opposites a
part is left, in the same order. -/
structure Removal (g h : Graph ν) (ls : List Link) : Prop where
  rewired : Rewired g h
  sublist (d : Direction) (s : Slot) : (h.peers d s).Sublist (g.peers d s)
  count (d : Direction) (s t : Slot) :
    (h.peers d s).count t = (g.peers d s).count t - ls.count (.between d s t)

namespace Removal

variable {f g h : Graph ν} {ls ms : List Link}

omit [LawfulPorts φ ν] in
theorem refl (g : Graph ν) : Removal g g [] where
  rewired := .refl g
  sublist _ _ := List.Sublist.refl _
  count _ _ _ := rfl

omit [LawfulPorts φ ν] in
theorem trans (hfg : Removal f g ls) (hgh : Removal g h ms) : Removal f h (ls ++ ms) where
  rewired := hfg.rewired.trans hgh.rewired
  sublist d s := (hgh.sublist d s).trans (hfg.sublist d s)
  count d s t := by
    rw [hgh.count, hfg.count, List.count_append, Nat.sub_sub]

omit [LawfulPorts φ ν] in
/-- Whatever is removed, a consistent graph stays consistent. -/
theorem consistent (hr : Removal g h ls) (hg : g.Consistent) : h.Consistent := by
  apply consistent_iff.mpr
  intro d s t
  rw [hr.count, hr.count, hg.count_comm, Link.between_opposite]

omit [LawfulPorts φ ν] in
/-- Where all or nothing of each connection is removed, lists of opposites are filtered. -/
theorem peers_eq_filter (hr : Removal g h ls) (doomed : Link → Bool)
    (hall : ∀ d s t, doomed (.between d s t) = true →
      (g.peers d s).count t ≤ ls.count (.between d s t))
    (hnone : ∀ l ∈ ls, doomed l = true) (d : Direction) (s : Slot) :
    h.peers d s = (g.peers d s).filter fun t => !doomed (.between d s t) := by
  refine eq_filter_of_sublist (hr.sublist d s) (fun t ht => ?_) fun t ht => ?_
  · have hzero : ls.count (.between d s t) = 0 := by
      apply List.count_eq_zero.mpr
      intro hmem
      rw [hnone _ hmem] at ht
      cases ht
    rw [hr.count, hzero, Nat.sub_zero]
  · have hle := hall d s t (by simpa using ht)
    have := hr.count d s t
    rw [← List.count_eq_zero]
    omega

/-- On a consistent graph `disconnect` removes the connection if there is one, and nothing else. -/
theorem disconnect (hg : g.Consistent) (d : Direction) (p q : Slot) :
    Removal g (g.disconnect d p q).val.1 [.between d p q] := by
  by_cases hl : g.Links (.between d p q)
  · rw [disconnect_of_links hl]
    refine ⟨g.rewired_part d p q, ?_, ?_⟩
    · intro e s
      rw [peers_part]
      split
      · exact List.erase_sublist
      · exact List.Sublist.refl _
    · intro e s t
      rw [peers_part, List.count_singleton]
      by_cases hs : s = (Link.between d p q).side e
      · rw [if_pos hs, List.count_erase]
        congr 1
        by_cases ht : (Link.between d p q).side e.opposite = t
        · simp [ht, Link.eq_between_iff, hs]
        · simp [ht, Link.eq_between_iff]
      · have : Link.between d p q ≠ .between e s t := fun h =>
          hs (Link.eq_between_iff.mp h).1.symm
        simp [hs, this]
  · rw [(disconnect_of_not_links hl).1]
    refine ⟨.refl g, fun e s => List.Sublist.refl _, ?_⟩
    intro e s t
    rw [List.count_singleton]
    by_cases hl' : Link.between d p q = .between e s t
    · -- neither end records the other: one of them does not, and they agree
      have hzero : (g.peers e s).count t = 0 := by
        refine List.count_eq_zero.mpr fun ht => hl ?_
        rw [hl']
        exact links_between_iff.mpr ⟨ht, hg.mem_comm.mp ht⟩
      omega
    · simp [hl']

end Removal

end Graph

end PortGraph
