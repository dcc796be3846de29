import PortGraph.Proofs.Grafting
import PortGraph.Proofs.Transferring

/-!
# Refused operations

A request that is refused changes nothing, in whatever state the graph is, and no vertex learns of
it: nothing that vertices do when they join or leave can make a difference (`Refused`). A connection
that is made or removed is made or removed at both ends, also where these disagreed about others
before, and nowhere else (`Updated`). `Reliable` puts this together for all requests that can be
refused.
-/

namespace PortGraph

variable {φ : Flavour} {ν : Type}

/-- The same vertices, which do something else when they join or leave a graph. -/
abbrev Vertex.withHooks (I : Vertex φ ν) (join : Option Membership → ν → Journaled ν)
    (leave : ν → Journaled ν) : Vertex φ ν :=
  { I with onJoin := join, onLeave := leave }

/-- The error says that an address does not exist. -/
def ConnectError.SaysUnknown : ConnectError → Prop
  | unknownNode _ | unknownPort _ => True
  | alreadyConnected .. | inconsistentConnection .. => False

namespace Graph

variable [I : Vertex φ ν]

/-! ## Refusals -/

/-- An operation on graphs does nothing: they stay as they were, no vertex gives notice, and all is
the same whatever vertices do when they join or leave, as none of them does. -/
structure Refused {α β : Type} (op : Vertex φ ν → Journaled α) (graphs : α → β) (before : β) :
    Prop where
  unchanged : graphs (op I).val = before
  no_notices : notices (op I).journal = []
  no_hooks (join : Option Membership → ν → Journaled ν) (leave : ν → Journaled ν) :
    op (I.withHooks join leave) = op I

/-- A request that is turned down at once is refused. -/
theorem Refused.of_eq_pure {α β : Type} {op : Vertex φ ν → Journaled α} {graphs : α → β}
    {before : β} {a : α} (h : op I = pure a)
    (hhooks : ∀ join leave, op (I.withHooks join leave) = pure a) (ha : graphs a = before) :
    Refused op graphs before where
  unchanged := by rw [h]; exact ha
  no_notices := by rw [h]; rfl
  no_hooks join leave := (hhooks join leave).trans h.symm

section Requests

variable {g : Graph ν} {d : Direction} {p q : Slot} {id : NodeId}

/-- A connection that is not made is refused. -/
theorem refused_connect (h : (g.connect d p q).val.2 ≠ .ok true) :
    Refused (@connect φ ν · g d p q) Prod.fst g := by
  refine ⟨(connect_of_not_admits fun hadmits => ?_).1, ?_, fun _ _ => rfl⟩
  · rw [connect_of_admits hadmits] at h
    exact h rfl
  · have houtcome := g.connect_outcome d p q
    generalize g.connect d p q = c at houtcome ⊢
    cases houtcome <;> rfl

/-- A connection that is not removed is not touched. -/
theorem refused_disconnect (h : (g.disconnect d p q).val.2 ≠ .ok true) :
    Refused (@disconnect φ ν · g d p q) Prod.fst g := by
  refine ⟨(disconnect_of_not_links fun hlinks => ?_).1, ?_, fun _ _ => rfl⟩
  · rw [disconnect_of_links hlinks] at h
    exact h rfl
  · have houtcome := g.disconnect_outcome d p q
    generalize g.disconnect d p q = c at houtcome ⊢
    cases houtcome <;> rfl

/-- Where there is no port there is nothing to disconnect. -/
theorem refused_disconnectAll {e : ConnectError} (he : e.SaysUnknown)
    (h : (g.disconnectAll d p).val.2 = .error e) :
    Refused (@disconnectAll φ ν · g d p) Prod.fst g := by
  cases hopp : g.opposites d p with
  | error e' =>
    have hpure (J : Vertex φ ν) (hopp : @opposites φ ν J g d p = .error e') :
        @disconnectAll φ ν J g d p = pure (g, .error e') := by
      rw [disconnectAll, hopp]
    exact .of_eq_pure (hpure I hopp) (fun _ _ => hpure _ hopp) rfl
  | ok opposites =>
    unfold disconnectAll at h
    rw [hopp] at h
    revert h
    simp only
    split
    · intro h
      cases h
    · intro h
      cases h
      exact he.elim

/-- A vertex that is not there is not revised, and the function is not called. -/
theorem refused_modify {ρ : Type} {f : ν → Journaled (ν × ρ)} {k : NodeId}
    (h : (g.modify id f).val.2 = .error (.notFound k)) :
    Refused (@modify φ ν ρ · g id f) Prod.fst g ∧ ∀ f', g.modify id f' = g.modify id f := by
  cases hv : g.find? id with
  | none =>
    have hpure (J : Vertex φ ν) (f : ν → Journaled (ν × ρ)) :
        @modify φ ν ρ J g id f = pure (g, .error (.notFound id)) := by
      rw [modify, hv]
    exact ⟨.of_eq_pure (hpure I f) (fun _ _ => hpure _ f) rfl,
      fun f' => (hpure I f').trans (hpure I f).symm⟩
  | some v =>
    rw [modify, hv] at h
    cases h

/-- A vertex that is not there is not erased. -/
theorem refused_erase (h : (g.erase id).val.2 = false) :
    Refused (@erase φ ν · g id) Prod.fst g := by
  by_cases hv : g.contains id = true
  · rw [erase, if_pos hv] at h
    cases h
  · have hpure (J : Vertex φ ν) : @erase φ ν J g id = pure (g, false) := by
      rw [erase, if_neg hv]
    exact .of_eq_pure (hpure I) (fun _ _ => hpure _) rfl

/-- Severing connections takes no vertex out of use, whatever they are. -/
theorem contains_sever (g : Graph ν) (d : Direction) (p q : Slot) (k : NodeId) :
    (g.sever d p q).val.contains k = g.contains k := by
  rw [val_sever]
  by_cases h : g.Links (.between d p q)
  · rw [disconnect_of_links h]
    exact (contains_adjust _ _ _ _).trans (contains_adjust _ _ _ _)
  · rw [(disconnect_of_not_links h).1]

theorem contains_severWhere (g : Graph ν) (id : NodeId) (keep : NodeId → Bool) (k : NodeId) :
    (g.severWhere id keep).val.contains k = g.contains k := by
  have hfold (d : Direction) (cs : List (Slot × Slot)) (g : Graph ν) :
      (cs.foldl (fun g c => (g.sever d c.1 c.2).val) g).contains k = g.contains k := by
    induction cs generalizing g with
    | nil => rfl
    | cons c rest ih => exact (ih _).trans (g.contains_sever d c.1 c.2 k)
  unfold severWhere
  split
  · rfl
  · simp only [Journaled.val_bind, Journaled.val_foldlM]
    exact (hfold .outgoing _ _).trans (hfold .incoming _ _)

/-- A vertex that is not there is not released. -/
theorem refused_release (h : (g.release id).val.2 = none) :
    Refused (@release φ ν · g id) Prod.fst g := by
  by_cases hv : g.contains id = true
  · rw [release, if_pos hv] at h
    obtain ⟨v, hv⟩ := contains_iff.mp ((g.contains_severWhere id (fun _ => false) id).trans hv)
    simp only [Journaled.val_bind, unbind, hv] at h
    cases h
  · have hpure (J : Vertex φ ν) : @release φ ν J g id = pure (g, none) := by
      rw [release, if_neg hv]
    exact .of_eq_pure (hpure I) (fun _ _ => hpure _) rfl

/-- Vertices on the way to another graph may be refused there, but are not found missing. -/
theorem carry_answer_ne {source dest : Graph ν} {names : Renaming} {ids : List NodeId}
    (k : NodeId) :
    (source.carry dest names ids).val.answer ≠ .error (.migrationTargetNotInSource k) := by
  induction ids generalizing source dest names with
  | nil => nofun
  | cons id rest ih =>
    unfold carry
    rw [Journaled.val_bind]
    obtain ⟨source', _ | v⟩ := (source.unbind id).val
    · exact ih
    · simp only [Journaled.val_bind]
      by_cases hnext : dest.contains dest.next = true
      · rw [adopt_of_contains hnext]
        nofun
      · rw [adopt_of_not_contains hnext]
        exact ih

/-- Vertices that are not all there are not released to another graph. -/
theorem refused_releaseInto {subset : List NodeId} {dest : Graph ν} {k : NodeId}
    (h : (g.releaseInto subset dest).val.answer = .error (.migrationTargetNotInSource k)) :
    Refused (@releaseInto φ ν · g subset dest) (fun t => (t.source, t.dest)) (g, dest) := by
  cases hm : (subset.filter fun id => !g.contains id).min? with
  | some missing =>
    have hpure (J : Vertex φ ν) : @releaseInto φ ν J g subset dest =
        pure ⟨g, dest, .error (.migrationTargetNotInSource missing)⟩ := by
      rw [releaseInto, hm]
    exact .of_eq_pure (hpure I) (fun _ _ => hpure _) rfl
  | none =>
    rw [releaseInto, hm] at h
    simp only [Journaled.val_bind] at h
    generalize hcarry : (carry _ dest .empty (g.ids.filter subset.contains)).val = t at h
    obtain ⟨source', dest', e | names⟩ := t
    · exact absurd (congrArg Transfer.answer hcarry |>.trans h) (carry_answer_ne k)
    · cases h

end Requests

/-! ## Updates -/

/-- `h` is `g` after the lists of two opposite ports were changed: that of `p` as `change` does it
for `q`, and that of `q` as it does it for `p`. Nothing else is different. -/
structure Updated (g h : Graph ν) (d : Direction) (p q : Slot)
    (change : Slot → List Slot → List Slot) : Prop where
  rewired : Rewired g h
  hasPort_near : g.HasPort d p
  hasPort_far : g.HasPort d.opposite q
  peers_near : h.peers d p = change q (g.peers d p)
  peers_far : h.peers d.opposite q = change p (g.peers d.opposite q)
  /-- Every other port is as it was. -/
  port?_eq {e : Direction} {s : Slot} (hnear : ¬(e = d ∧ s = p))
    (hfar : ¬(e = d.opposite ∧ s = q)) : h.port? e s = g.port? e s
  /-- Every other vertex is as it was. -/
  find?_eq {k : NodeId} (hp : k ≠ p.node) (hq : k ≠ q.node) : h.find? k = g.find? k

section Updates

variable [LawfulPorts φ ν] {g : Graph ν} {d : Direction} {p q : Slot}

/-- Two opposite ports were changed, and the lists are known that they have then. -/
theorem Updated.of_adjustPort {f f' : Port φ → Port φ} {change : Slot → List Slot → List Slot}
    (hf : ∀ P, (f P).offset = P.offset) (hf' : ∀ P, (f' P).offset = P.offset)
    (hp : g.HasPort d p) (hq : g.HasPort d.opposite q)
    (hnear : ((g.adjustPort d p f).adjustPort d.opposite q f').peers d p = change q (g.peers d p))
    (hfar : ((g.adjustPort d p f).adjustPort d.opposite q f').peers d.opposite q =
      change p (g.peers d.opposite q)) :
    Updated g ((g.adjustPort d p f).adjustPort d.opposite q f') d p q change where
  rewired := (g.rewired_adjustPort d p hf).trans (rewired_adjustPort _ d.opposite q hf')
  hasPort_near := hp
  hasPort_far := hq
  peers_near := hnear
  peers_far := hfar
  port?_eq hnear hfar := by rw [port?_adjustPort, if_neg hfar, port?_adjustPort, if_neg hnear]
  find?_eq hkp hkq := (find?_adjustPort_of_ne hkq).trans (find?_adjustPort_of_ne hkp)

/-- A connection is made between two ports with room for it, as the last one of either. -/
theorem updated_connect (h : (g.connect d p q).val.2 = .ok true) :
    Updated g (g.connect d p q).val.1 d p q (fun s slots => slots ++ [s]) ∧
      (φ = .single → g.peers d p = [] ∧ g.peers d.opposite q = []) := by
  by_cases hadmits : g.Admits (.between d p q)
  · have hp := hadmits d
    have hq := hadmits d.opposite
    rw [Link.side_between] at hp
    rw [Link.side_opposite_between] at hq
    rw [connect_of_admits hadmits]
    refine ⟨.of_adjustPort (Port.offset_link · q) (Port.offset_link · p) hp.1 hq.1 ?_ ?_, ?_⟩
    · refine (peers_join hadmits d p).trans ?_
      rw [Link.farEnds_cons, Link.side_between, if_pos rfl, Link.side_opposite_between,
        Link.farEnds_nil]
    · refine (peers_join hadmits d.opposite q).trans ?_
      rw [Link.farEnds_cons, Link.side_opposite_between, if_pos rfl, Direction.opposite_opposite,
        Link.side_between, Link.farEnds_nil]
    · rintro rfl
      exact ⟨hp.2.resolve_left nofun, hq.2.resolve_left nofun⟩
  · exact absurd h (connect_of_not_admits hadmits).2

/-- A connection is removed between two ports that record it, the earliest one of either. -/
theorem updated_disconnect (h : (g.disconnect d p q).val.2 = .ok true) :
    Updated g (g.disconnect d p q).val.1 d p q (fun s slots => slots.erase s) ∧
      q ∈ g.peers d p ∧ p ∈ g.peers d.opposite q := by
  by_cases hlinks : g.Links (.between d p q)
  · obtain ⟨hp, hq⟩ := links_between_iff.mp hlinks
    rw [disconnect_of_links hlinks]
    refine ⟨.of_adjustPort (Port.offset_unlink · q) (Port.offset_unlink · p)
      (hasPort_of_mem_peers hp) (hasPort_of_mem_peers hq) ?_ ?_, hp, hq⟩
    · refine (g.peers_part d p q d p).trans ?_
      rw [Link.side_between, if_pos rfl, Link.side_opposite_between]
    · refine (g.peers_part d p q d.opposite q).trans ?_
      rw [Link.side_opposite_between, if_pos rfl, Direction.opposite_opposite, Link.side_between]
  · exact absurd h (disconnect_of_not_links hlinks).2

end Updates

/-! ## Requests -/

/-- Requests to `g` are carried out in full or not at all. -/
structure Reliable (g : Graph ν) : Prop where
  connect {d : Direction} {p q : Slot} (h : (g.connect d p q).val.2 ≠ .ok true) :
    Refused (@Graph.connect φ ν · g d p q) Prod.fst g
  disconnect {d : Direction} {p q : Slot} (h : (g.disconnect d p q).val.2 ≠ .ok true) :
    Refused (@Graph.disconnect φ ν · g d p q) Prod.fst g
  /-- There is no port whose connections could be removed. -/
  disconnectAll {d : Direction} {s : Slot} {e : ConnectError} (he : e.SaysUnknown)
    (h : (g.disconnectAll d s).val.2 = .error e) :
    Refused (@Graph.disconnectAll φ ν · g d s) Prod.fst g
  /-- There is no vertex that could be revised. The function is not called: any other would do. -/
  modify {ρ : Type} {id : NodeId} {f : ν → Journaled (ν × ρ)} {k : NodeId}
    (h : (g.modify id f).val.2 = .error (.notFound k)) :
    Refused (@Graph.modify φ ν ρ · g id f) Prod.fst g ∧ ∀ f', g.modify id f' = g.modify id f
  erase {id : NodeId} (h : (g.erase id).val.2 = false) :
    Refused (@Graph.erase φ ν · g id) Prod.fst g
  release {id : NodeId} (h : (g.release id).val.2 = none) :
    Refused (@Graph.release φ ν · g id) Prod.fst g
  /-- Neither graph is changed. -/
  releaseInto {subset : List NodeId} {dest : Graph ν} {k : NodeId}
    (h : (g.releaseInto subset dest).val.answer = .error (.migrationTargetNotInSource k)) :
    Refused (@Graph.releaseInto φ ν · g subset dest) (fun t => (t.source, t.dest)) (g, dest)
  /-- A connection that is made comes last at both ports. Single ports were free. -/
  connected {d : Direction} {p q : Slot} (h : (g.connect d p q).val.2 = .ok true) :
    Updated g (g.connect d p q).val.1 d p q (fun s slots => slots ++ [s]) ∧
      (φ = .single → g.peers d p = [] ∧ g.peers d.opposite q = [])
  /-- A connection that is removed was recorded at both ports, and the earliest entry goes. -/
  disconnected {d : Direction} {p q : Slot} (h : (g.disconnect d p q).val.2 = .ok true) :
    Updated g (g.disconnect d p q).val.1 d p q (fun s slots => slots.erase s) ∧
      q ∈ g.peers d p ∧ p ∈ g.peers d.opposite q

/-- In every state requests are carried out in full or not at all. -/
theorem requests_all_or_nothing [LawfulPorts φ ν] (g : Graph ν) : Reliable g where
  connect := refused_connect
  disconnect := refused_disconnect
  disconnectAll := refused_disconnectAll
  modify := refused_modify
  erase := refused_erase
  release := refused_release
  releaseInto := refused_releaseInto
  connected := updated_connect
  disconnected := updated_disconnect

/-- In a torn graph a connection that only one end records is neither made nor removed. The one that
both ends record is. -/
theorem requests_all_or_nothing_torn :
    let g := torn ⟨2⟩
    let second : NodeId := NodeId.first.next
    Reliable g ∧
      (g.disconnect .incoming ⟨second, 0⟩ ⟨.first, 0⟩).val.2 =
        .error (.inconsistentConnection (second.input 0) (NodeId.first.output 0)) ∧
      (g.connect .incoming ⟨second, 0⟩ ⟨.first, 0⟩).val.2 =
        .error (.alreadyConnected (NodeId.first.output 0) (second.next.input 0)) ∧
      (g.disconnect .outgoing ⟨.first, 0⟩ ⟨second.next, 0⟩).val.2 = .ok true := by
  intro g second
  exact ⟨requests_all_or_nothing g, by decide, by decide, by decide⟩

end Graph

end PortGraph
