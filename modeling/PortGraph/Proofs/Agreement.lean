import PortGraph.Node
import PortGraph.Proofs.Modifying
import PortGraph.Proofs.Severing

/-!
# Ends that agree

Operations on connections look at both ends before they change either, and report it if the two
contradict each other. On a consistent graph they do not: what one end records the other one records
too, also in the middle of an operation that removes many connections one at a time. So nothing is
reported that would be a sign of a corrupt graph (`Calm`), and of the errors only one is ever about
disagreeing ends: to disconnect a single port from one that it is not connected to
(`Graph.disconnect_inconsistent_iff`).
-/

namespace PortGraph

/-! ## Calm journals -/

/-- No warning is entered, except that a revised vertex records connections that nobody made. -/
def Calm (journal : List Entry) : Prop :=
  ∀ e, Entry.event e ∈ journal → e.severity = .warning →
    ∃ graph node, e = .unmanagedLinks graph node

@[simp] theorem calm_nil : Calm [] := fun _ he => absurd he List.not_mem_nil

@[simp] theorem calm_append {j j' : List Entry} : Calm (j ++ j') ↔ Calm j ∧ Calm j' := by
  constructor
  · exact fun h => ⟨fun e he => h e (List.mem_append_left _ he),
      fun e he => h e (List.mem_append_right _ he)⟩
  · rintro ⟨h, h'⟩ e he
    exact (List.mem_append.mp he).elim (h e) (h' e)

@[simp] theorem calm_event {e : Event} : Calm [.event e] ↔
    (e.severity = .warning → ∃ graph node, e = .unmanagedLinks graph node) := by
  simp [Calm]

theorem calm_trace {e : Event} (h : e.severity = .trace) : Calm [.event e] := by
  simp [h]

theorem calm_debug {e : Event} (h : e.severity = .debug) : Calm [.event e] := by
  simp [h]

/-- A step and what follows on its result are calm if each is. -/
theorem Calm.bind {α β : Type} {x : Journaled α} {f : α → Journaled β} (hx : Calm x.journal)
    (hf : ∀ a, x.val = a → Calm (f a).journal) : Calm (x >>= f).journal :=
  calm_append.mpr ⟨hx, hf x.val rfl⟩

/-- Steps are calm one after the other if something makes each of them calm and lasts: `I as b` says
that the steps `as` are left to do at `b`. -/
theorem Calm.foldlM {α β : Type} {f : β → α → Journaled β} (I : List α → β → Prop)
    (hstep : ∀ a rest b, I (a :: rest) b → Calm (f b a).journal ∧ I rest (f b a).val)
    {as : List α} {b : β} (h : I as b) : Calm (as.foldlM f b).journal := by
  induction as generalizing b with
  | nil => exact calm_nil
  | cons a rest ih =>
    obtain ⟨ha, hrest⟩ := hstep a rest b h
    rw [List.foldlM_cons, Journaled.journal_bind]
    exact calm_append.mpr ⟨ha, ih hrest⟩

/-- Vertices that are calm when they join or leave a graph. -/
class TacitVertex (φ : outParam Flavour) (ν : Type) [Vertex φ ν] : Prop where
  calm_onJoin (m : Option Membership) (v : ν) : Calm (Vertex.onJoin m v).journal
  calm_onLeave (v : ν) : Calm (Vertex.onLeave v).journal

instance {φ : Flavour} {ω : Type} : TacitVertex φ (Node φ ω) where
  calm_onJoin _ _ := calm_nil
  calm_onLeave _ := calm_nil

/-! ## Checks at one end -/

namespace Port

variable {φ : Flavour} {p : Port φ} {d : Direction} {this other : Slot}

theorem checkLink_ne_inconsistent (a b : Address) :
    p.checkLink d this other ≠ .error (.inconsistentConnection a b) := by
  unfold checkLink
  split
  · nofun
  · nofun
  · split <;> nofun

/-- To disconnect a single port from one that it is not connected to is the only error. -/
theorem checkUnlink_eq_error_iff {e : ConnectError} : p.checkUnlink d this other = .error e ↔
    φ = .single ∧ (∃ t, p.opposites = [t] ∧ t ≠ other) ∧
      e = .inconsistentConnection (this.at d) (other.at d.opposite) := by
  obtain ⟨offset, opposites, hlen⟩ := p
  cases φ with
  | multi => simp [checkUnlink]
  | single =>
    rcases opposites with _ | ⟨current, _ | ⟨another, rest⟩⟩
    · simp [checkUnlink]
    · by_cases hc : current = other
      · simp [checkUnlink, hc]
      · simp [checkUnlink, hc, eq_comm (b := e)]
    · exact absurd (hlen rfl) (by simp)

end Port

namespace Graph

variable {φ : Flavour} {ν : Type} [Vertex φ ν]

/-! ## Connecting and disconnecting -/

variable {g : Graph ν} {d : Direction} {s : Slot}

theorem port_ne_inconsistent (a b : Address) :
    g.port d s ≠ .error (.inconsistentConnection a b) := by
  unfold port
  split
  · nofun
  · split <;> nofun

theorem bind_port_eq_inconsistent_iff {β : Type} {f : Port φ → Except ConnectError β}
    {a b : Address} :
    (g.port d s).bind f = .error (.inconsistentConnection a b) ↔
      ∃ P, g.port? d s = some P ∧ f P = .error (.inconsistentConnection a b) :=
  bind_port_eq_iff fun _ he => Except.error.inj he ▸ port_ne_inconsistent a b

/-- Both ends of a connection in a consistent graph find it there, or neither does. -/
theorem linkCheck_eq_ok_false_comm {g : Graph ν} (hg : g.Consistent) (d : Direction) (p q : Slot) :
    g.linkCheck d p q = .ok false ↔ g.linkCheck d.opposite q p = .ok false := by
  rw [linkCheck_eq_ok_false_iff, linkCheck_eq_ok_false_iff, hg.mem_comm]

/-- Ports of a consistent graph that are to be connected agree on whether they are. -/
theorem connect_agrees {g : Graph ν} (hg : g.Consistent) (d : Direction) (p q : Slot) :
    Calm (g.connect d p q).journal ∧
      ∀ a b, (g.connect d p q).val.2 ≠ .error (.inconsistentConnection a b) := by
  have hcheck (e : Direction) (s t : Slot) (a b : Address) :
      g.linkCheck e s t ≠ .error (.inconsistentConnection a b) := by
    intro h
    obtain ⟨P, _, hP⟩ := bind_port_eq_inconsistent_iff.mp h
    exact P.checkLink_ne_inconsistent a b hP
  have hcomm := linkCheck_eq_ok_false_comm hg d p q
  have houtcome := g.connect_outcome d p q
  generalize g.connect d p q = c at houtcome ⊢
  cases houtcome with
  | near hp => exact ⟨calm_nil, fun a b h => hcheck d p q a b (hp.trans h)⟩
  | far hq => exact ⟨calm_nil, fun a b h => hcheck d.opposite q p a b (hq.trans h)⟩
  | joined => exact ⟨calm_trace rfl, fun _ _ h => by cases h⟩
  | found => exact ⟨calm_nil, fun _ _ h => by cases h⟩
  | @mismatch x hp hq =>
    rw [hp, hq] at hcomm
    cases x <;> simp at hcomm

/-- Whether a port of a consistent graph is connected to another is the same at both ends, so that
the answer is that of the first, if there is a second. -/
theorem disconnect_agrees {g : Graph ν} (hg : g.Consistent) (d : Direction) (p q : Slot) :
    Calm (g.disconnect d p q).journal ∧
      (g.disconnect d p q).val.2 = (g.unlinkCheck d p q).bind fun x =>
        (g.port d.opposite q).bind fun _ => .ok x := by
  have houtcome := g.disconnect_outcome d p q
  generalize g.disconnect d p q = c at houtcome ⊢
  cases houtcome with
  | near hp => exact ⟨calm_nil, by rw [hp]; rfl⟩
  | far hp hq =>
    rw [hp]
    unfold farCheck opposites at hq
    cases hQ : g.port d.opposite q with
    | error e => rw [hQ] at hq; exact ⟨calm_nil, by cases hq; rfl⟩
    | ok Q => rw [hQ] at hq; cases hq
  | parted hp hq =>
    obtain ⟨Q, hQ, _⟩ := farCheck_eq_ok_iff.mp hq
    exact ⟨calm_trace rfl, by rw [hp, hQ]; rfl⟩
  | unrelated hp hq =>
    obtain ⟨Q, hQ, _⟩ := farCheck_eq_ok_iff.mp hq
    exact ⟨calm_nil, by rw [hp, hQ]; rfl⟩
  | @mismatch x hp hq =>
    have hsame : x = true ↔ (!x) = true := by
      rw [unlinkCheck_answers hp, farCheck_answers hq, hg.mem_comm]
    cases x <;> simp at hsame

/-- In a consistent graph to disconnect a single port from one that it is not connected to is the
only contradiction. -/
theorem disconnect_inconsistent_iff {g : Graph ν} (hg : g.Consistent) {d : Direction} {p q : Slot}
    {a b : Address} :
    (g.disconnect d p q).val.2 = .error (.inconsistentConnection a b) ↔
      φ = .single ∧ (∃ t, g.peers d p = [t] ∧ t ≠ q) ∧ a = p.at d ∧ b = q.at d.opposite := by
  rw [(disconnect_agrees hg d p q).2]
  constructor
  · intro h
    cases hcheck : g.unlinkCheck d p q with
    | error e =>
      rw [hcheck] at h
      obtain rfl := Except.error.inj h
      obtain ⟨P, hP, hrefused⟩ := bind_port_eq_inconsistent_iff.mp hcheck
      obtain ⟨hφ, ht, heq⟩ := Port.checkUnlink_eq_error_iff.mp hrefused
      obtain ⟨rfl, rfl⟩ := ConnectError.inconsistentConnection.inj heq
      rw [peers_eq_of_port? hP]
      exact ⟨hφ, ht, rfl, rfl⟩
    | ok x =>
      rw [hcheck] at h
      obtain ⟨Q, _, hQ⟩ := bind_port_eq_inconsistent_iff.mp h
      cases hQ
  · rintro ⟨hφ, ⟨t, ht, hne⟩, rfl, rfl⟩
    obtain ⟨P, hP⟩ := hasPort_of_mem_peers (ht ▸ .head _ : t ∈ g.peers d p)
    rw [peers_eq_of_port? hP] at ht
    have hrefused : P.checkUnlink d p q =
        .error (.inconsistentConnection (p.at d) (q.at d.opposite)) :=
      Port.checkUnlink_eq_error_iff.mpr ⟨hφ, ⟨t, ht, hne⟩, rfl⟩
    have hcheck : g.unlinkCheck d p q =
        .error (.inconsistentConnection (p.at d) (q.at d.opposite)) :=
      bind_port_eq_inconsistent_iff.mpr ⟨P, hP, hrefused⟩
    rw [hcheck]
    rfl

/-- A port of a consistent graph can be disconnected from another if it is connected to no third. -/
theorem disconnect_eq_ok {g : Graph ν} (hg : g.Consistent) {d : Direction} {p q : Slot}
    (hp : g.HasPort d p) (hq : g.HasPort d.opposite q)
    (hroom : φ = .single → ∀ t ∈ g.peers d p, t = q) : ∃ x, (g.disconnect d p q).val.2 = .ok x := by
  obtain ⟨P, hP⟩ := hp
  obtain ⟨Q, hQ⟩ := hq
  rw [(disconnect_agrees hg d p q).2]
  rw [peers_eq_of_port? hP] at hroom
  cases hx : P.checkUnlink d p q with
  | ok x =>
    have hcheck : g.unlinkCheck d p q = .ok x := bind_port_eq_ok_iff.mpr ⟨P, hP, hx⟩
    rw [hcheck]
    exact ⟨x, bind_port_eq_ok_iff.mpr ⟨Q, hQ, rfl⟩⟩
  | error e =>
    obtain ⟨hφ, ⟨t, ht, hne⟩, _⟩ := Port.checkUnlink_eq_error_iff.mp hx
    rw [ht] at hroom
    exact absurd (hroom hφ t (.head _)) hne

/-! ## Removing many connections -/

theorem records_iff {g : Graph ν} {d : Direction} {s t : Slot} :
    g.records d s t = true ↔ t ∈ g.peers d s := by
  unfold records opposites peers
  cases hp : g.port? d s with
  | some p =>
    rw [port_eq_ok_iff.mpr hp]
    exact List.contains_iff_mem
  | none =>
    cases hP : g.port d s with
    | error e => simp [Except.map]
    | ok P => rw [port_eq_ok_iff.mp hP] at hp; cases hp

variable [LawfulPorts φ ν]

/-- No far end fails exactly if each of them records the port as often as it is listed. -/
theorem forgetAt_snd_eq_none_iff {g : Graph ν} {d : Direction} {near : Slot} {fars : List Slot} :
    (g.forgetAt d near fars).2 = none ↔
      ∀ far, fars.count far ≤ (g.peers d far).count near := by
  induction fars generalizing g with
  | nil => simp [forgetAt]
  | cons far rest ih =>
    have hcount (t : Slot) : ((g.adjustPort d far (·.unlink near)).peers d t).count near =
        (g.peers d t).count near - if t = far then 1 else 0 := by
      rw [peers_adjustPort_unlink]
      by_cases ht : t = far <;> simp [ht]
    have hfar : g.records d far near = true ↔ 0 < (g.peers d far).count near := by
      rw [records_iff, List.count_pos_iff]
    simp only [forgetAt]
    split
    · next hrecorded =>
      rw [ih]
      refine forall_congr' fun t => ?_
      rw [hcount, List.count_cons]
      by_cases ht : t = far
      · subst ht
        have hpos := hfar.mp hrecorded
        simp only [if_true, beq_self_eq_true]
        omega
      · simp [ht, Ne.symm ht]
    · next hmissing =>
      rw [hfar] at hmissing
      refine iff_of_false (Option.some_ne_none far) fun h => ?_
      have hle := h far
      rw [List.count_cons_self] at hle
      omega

/-- The far ends of a port of a consistent graph record it. -/
theorem disconnectAll_agrees {g : Graph ν} (hg : g.Consistent) (d : Direction) (s : Slot) :
    Calm (g.disconnectAll d s).journal ∧
      ∀ a b, (g.disconnectAll d s).val.2 ≠ .error (.inconsistentConnection a b) := by
  unfold disconnectAll
  cases hP : g.port d s with
  | error e =>
    rw [opposites, hP]
    exact ⟨calm_nil, fun a b h => port_ne_inconsistent a b
      (hP.trans (congrArg Except.error (Except.error.inj h)))⟩
  | ok P =>
    have hnone : ((g.adjustPort d s Port.clear).forgetAt d.opposite s P.opposites).2 = none := by
      refine forgetAt_snd_eq_none_iff.mpr fun t => Nat.le_of_eq ?_
      rw [peers_adjustPort_clear, if_neg fun h => d.opposite_ne h.1, ← hg.count_comm,
        peers_eq_of_port? (port_eq_ok_iff.mp hP)]
    rw [opposites, hP]
    simp only [Except.map]
    rcases hforget : (g.adjustPort d s Port.clear).forgetAt d.opposite s P.opposites with
      ⟨h, _ | far⟩
    · exact ⟨calm_nil, fun _ _ h => by cases h⟩
    · rw [hforget] at hnone
      cases hnone

omit [LawfulPorts φ ν] in
/-- To sever ports is calm if the one is connected to no third. -/
theorem calm_sever {g : Graph ν} (hg : g.Consistent) {d : Direction} {p q : Slot}
    (hp : g.HasPort d p) (hq : g.HasPort d.opposite q)
    (hroom : φ = .single → ∀ t ∈ g.peers d p, t = q) : Calm (g.sever d p q).journal := by
  obtain ⟨x, hx⟩ := disconnect_eq_ok hg hp hq hroom
  rw [sever, Journaled.journal_bind, calm_append]
  refine ⟨(disconnect_agrees hg d p q).1, ?_⟩
  generalize (g.disconnect d p q).val = made at hx
  obtain ⟨h, answer⟩ := made
  cases hx
  exact calm_nil

/-- Connections that a consistent graph has are severed calmly one after the other, also if they are
listed again after they were removed. -/
theorem calm_foldlM_sever {g : Graph ν} (hg : g.Consistent) (d : Direction)
    {cs : List (Slot × Slot)} (hcs : ∀ c ∈ cs, c.2 ∈ g.peers d c.1) {h : Graph ν}
    {ls : List Link} (hr : Removal g h ls) :
    Calm (cs.foldlM (fun (g : Graph ν) c => g.sever d c.1 c.2) h).journal := by
  refine Calm.foldlM (fun rest h => (∀ c ∈ rest, c.2 ∈ g.peers d c.1) ∧ ∃ ls, Removal g h ls)
    (fun c rest h ⟨hlisted, ls, hr⟩ => ?_) ⟨hcs, ls, hr⟩
  have hc := hlisted c (.head _)
  have hh := hr.consistent hg
  have hnext := hr.trans (Removal.disconnect hh d c.1 c.2)
  rw [← val_sever] at hnext
  refine ⟨calm_sever hh (hr.rewired.hasPort_iff.mpr (hasPort_of_mem_peers hc))
    (hr.rewired.hasPort_iff.mpr (hg.hasPort hc)) fun hφ t ht => ?_,
    fun c' hc' => hlisted c' (.tail _ hc'), _, hnext⟩
  -- what is left of a single port is what it was connected to
  have ht' := (hr.sublist d c.1).subset ht
  obtain ⟨x, hx⟩ := List.length_eq_one_iff.mp
    (Nat.le_antisymm (g.length_peers_le d c.1 hφ) (List.length_pos_of_mem hc))
  rw [hx, List.mem_singleton] at hc ht'
  rw [hc, ht']

omit [LawfulPorts φ ν] in
/-- What a stored vertex is in contact with is listed at its ports. -/
theorem mem_peers_of_mem_contacts {g : Graph ν} {id : NodeId} {v : ν} (hv : g.find? id = some v)
    {d : Direction} {c : Slot × Slot} (hc : c ∈ Vertex.contacts d id v) : c.2 ∈ g.peers d c.1 := by
  have hpos : 0 < (Vertex.links d id v).count (.between d c.1 c.2) :=
    List.count_pos_iff.mpr (List.mem_map_of_mem hc)
  rw [count_links hv] at hpos
  split at hpos
  · rw [Link.side_between, Link.side_opposite_between] at hpos
    exact List.count_pos_iff.mp hpos
  · exact absurd hpos (Nat.lt_irrefl 0)

/-- A loop is met twice, the second time when nothing is left of it. -/
theorem calm_severWhere {g : Graph ν} (hg : g.Consistent) (id : NodeId) (keep : NodeId → Bool) :
    Calm (g.severWhere id keep).journal := by
  cases hv : g.find? id with
  | none =>
    rw [severWhere, hv]
    exact calm_nil
  | some v =>
    have hlisted (d : Direction) :
        ∀ c ∈ (Vertex.contacts d id v).filter fun c => !keep c.2.node, c.2 ∈ g.peers d c.1 :=
      fun c hc => mem_peers_of_mem_contacts hv (List.mem_filter.mp hc).1
    have hin := removal_foldl_sever hg .incoming
      ((Vertex.contacts .incoming id v).filter fun c => !keep c.2.node)
    have hout := calm_foldlM_sever hg .outgoing (hlisted .outgoing) hin
    rw [← Journaled.val_foldlM] at hout
    rw [severWhere, hv]
    exact calm_append.mpr ⟨calm_foldlM_sever hg .incoming (hlisted .incoming) (.refl g), hout⟩

/-! ## Dropping lost links -/

omit [LawfulPorts φ ν] in
/-- A lost link is dropped calmly if a far end at another vertex records it. -/
theorem calm_dropLost {g : Graph ν} {id : NodeId} {l : Link}
    (h : ∀ d, (l.side d).node ≠ id → l.side d.opposite ∈ g.peers d (l.side d)) :
    Calm (dropLost id g l).journal := by
  have hdrop (d : Direction) (hd : (l.side d).node ≠ id) :
      Calm (Journaled.reportIf (!g.records d (l.side d) (l.side d.opposite))
        (.dropMismatch l)).journal := by
    rw [records_iff.mpr (h d hd)]
    exact calm_nil
  have hdropped : Calm [.event (.dropped g.id l)] := calm_trace rfl
  unfold dropLost
  by_cases hloop : l.isLoopAt id = true
  · rw [if_pos hloop]
    exact calm_nil
  · rw [if_neg hloop]
    by_cases hin : l.input.node = id
    · have hout : l.output.node ≠ id := fun hout => hloop (by simp [Link.isLoopAt, hin, hout])
      rw [if_pos hin]
      exact calm_append.mpr ⟨hdrop .outgoing hout, hdropped⟩
    · rw [if_neg hin]
      exact calm_append.mpr ⟨hdrop .incoming hin, hdropped⟩

/-- Links of vertex `id` are dropped calmly one after the other if their far ends record them as
often as they are lost. -/
theorem calm_foldlM_dropLost {id : NodeId} {ls : List Link} (hls : ∀ l ∈ ls, l.touches id = true)
    {g : Graph ν} (hcount : ∀ d s t, s.node ≠ id →
      ls.count (.between d s t) ≤ (g.peers d s).count t) :
    Calm (ls.foldlM (dropLost id) g).journal := by
  refine Calm.foldlM (fun rest (h : Graph ν) => (∀ l ∈ rest, l.touches id = true) ∧
    ∀ d s t, s.node ≠ id → rest.count (.between d s t) ≤ (h.peers d s).count t)
    (fun l rest h ⟨htouches, hrest⟩ => ?_) ⟨hls, hcount⟩
  obtain ⟨_, hpeers, _⟩ := dropLost_spec (htouches l (.head _)) h
  refine ⟨calm_dropLost fun d hd => ?_, fun m hm => htouches m (.tail _ hm), fun d s t hs => ?_⟩
  · have hle := hrest d (l.side d) (l.side d.opposite) hd
    rw [Link.between_side, List.count_cons_self] at hle
    exact List.count_pos_iff.mp (Nat.lt_of_lt_of_le (Nat.succ_pos _) hle)
  · have hle := hrest d s t hs
    rw [hpeers]
    by_cases hl : l = .between d s t
    · -- one is dropped and one fewer is left to drop
      obtain ⟨hside, hopposite⟩ := Link.eq_between_iff.mp hl
      rw [if_pos ⟨hs, hside.symm⟩, hopposite, List.count_erase_self]
      rw [hl, List.count_cons_self] at hle
      omega
    · rw [List.count_cons_of_ne hl] at hle
      split
      · next hside =>
        have hne : t ≠ l.side d.opposite := fun ht =>
          hl (Link.eq_between_iff.mpr ⟨hside.2.symm, ht.symm⟩)
        rwa [List.count_erase_of_ne hne]
      · exact hle

/-! ## Revising -/

variable [TacitVertex φ ν]

omit [LawfulPorts φ ν] in
theorem calm_rebind (g : Graph ν) (id : NodeId) (w : ν) : Calm (g.rebind id w).journal := by
  unfold rebind
  split
  · exact calm_nil
  · exact calm_append.mpr ⟨calm_trace rfl, TacitVertex.calm_onJoin _ w⟩

/-- Whatever became of a vertex of a consistent graph, the far ends of its lost links record them,
each as often as it was there. -/
theorem calm_repair {g : Graph ν} (hg : g.Consistent) {id : NodeId} {v : ν}
    (hv : g.find? id = some v) (w : ν) :
    Calm (g.repair id (Vertex.links .incoming id v) (Vertex.links .outgoing id v) w).journal := by
  have hcount (u : ν) (d : Direction) (s t : Slot) (hs : s.node ≠ id) :
      (settlement id v u).lost.count (.between d s t) ≤
        (((settlement id v u).kept.foldl (restore id) (g.seated id u)).peers d s).count t := by
    have hfar : ((settlement id v u).kept.foldl (restore id) (g.seated id u)).peers d s =
        g.peers d s :=
      peers_congr (port?_congr ((find?_foldl_restore hs _ _).trans (g.find?_seated_of_ne hs u)))
    rw [hfar, hg.count_peers]
    by_cases htouches : (Link.between d s t).touches id = true
    · have htotal := (count_settlement hg hv u htouches).2
      omega
    · rw [List.count_eq_zero.mpr fun hl =>
        htouches (touches_of_mem_settlement hg hv u (.inr hl))]
      exact Nat.zero_le _
  have hunmanaged (s : Settlement) :
      Calm (Journaled.reportIf (s.hasUnmanaged id) (.unmanagedLinks g.id id)).journal := by
    unfold Journaled.reportIf
    split
    · exact calm_event.mpr fun _ => ⟨g.id, id, rfl⟩
    · exact calm_nil
  refine calm_append.mpr ⟨calm_rebind g id w, calm_append.mpr ⟨hunmanaged _, ?_⟩⟩
  exact calm_foldlM_dropLost (fun l hl => touches_of_mem_settlement hg hv _ (.inr hl)) (hcount _)

/-- Revising a vertex is calm if the function is. -/
theorem calm_modify {ρ : Type} {g : Graph ν} (hg : g.Consistent) (id : NodeId)
    {f : ν → Journaled (ν × ρ)} (hf : ∀ v, Calm (f v).journal) : Calm (g.modify id f).journal := by
  unfold modify
  cases hv : g.find? id with
  | none => exact calm_nil
  | some v =>
    have hrepair := calm_repair hg hv (f v).val.1
    refine calm_append.mpr ⟨hf v, calm_append.mpr ⟨hrepair, calm_nil⟩⟩

/-- Revising all vertices is calm, and none of them is gone when its turn comes. -/
theorem calm_modifyEach {σ : Type} {g : Graph ν} (hg : g.Consistent)
    {f : σ → NodeId → ν → Journaled (ν × σ)} (hf : ∀ x id v, Calm (f x id v).journal) (x : σ) :
    Calm (g.modifyEach f x).journal := by
  refine Calm.foldlM (fun rest (s : Graph ν × σ) =>
      s.1.Consistent ∧ ∀ k ∈ rest, s.1.contains k = true)
    (fun id rest s ⟨hs, hstored⟩ => ?_) ⟨hg, fun k hk => IdMap.mem_keys_iff.mp hk⟩
  obtain ⟨h, y⟩ := s
  obtain ⟨v, hv⟩ := contains_iff.mp (hstored id (.head _))
  have hconsistent := consistent_repair hs hv (f y id v).val.1
  have hids := (repaired_repair hs hv (f y id v).val.1).ids_eq (hstored id (.head _))
  have hmodify := calm_modify hs id (hf y id)
  simp only [Journaled.journal_bind, Journaled.val_bind, val_modify hv (f y id)]
  refine ⟨calm_append.mpr ⟨hmodify, calm_nil⟩, hconsistent, fun k hk => ?_⟩
  have hk' : k ∈ h.ids := IdMap.mem_keys_iff.mpr (hstored k (.tail _ hk))
  rw [← hids] at hk'
  exact IdMap.mem_keys_iff.mp hk'

end Graph

end PortGraph
