import PortGraph.Graph.Removal
import PortGraph.Proofs.Connecting
import PortGraph.Proofs.Links

/-!
# Removing many connections

All connections of a port, of a vertex to a part of the others, and of vertices that go away are
removed one at a time, as they are recorded before the first of them is removed. On a consistent
graph the result is that of removing them all at once: lists of opposites are filtered.
`Excision g h gone` says so of a graph that lost the vertices `gone` with all of their connections.
A loop is met twice, from its input and from its output. This does no harm, because a removal takes
no more than there is.
-/

namespace PortGraph.Graph

variable {φ : Flavour} {ν : Type} [Vertex φ ν] [LawfulPorts φ ν]

/-! ## All connections of a port -/

/-- Forgetting the port `near` at far ends, once for each time they are listed: only these ends
change, and only in their entries for `near`. -/
theorem forgetAt_spec (g : Graph ν) (d : Direction) (near : Slot) (fars : List Slot) :
    Rewired g (g.forgetAt d near fars).1 ∧
      (∀ e t, e ≠ d → (g.forgetAt d near fars).1.peers e t = g.peers e t) ∧
      (∀ t, ((g.forgetAt d near fars).1.peers d t).Sublist (g.peers d t)) ∧
      ∀ t x, ((g.forgetAt d near fars).1.peers d t).count x =
        (g.peers d t).count x - if x = near then fars.count t else 0 := by
  induction fars generalizing g with
  | nil =>
    refine ⟨.refl g, fun _ _ _ => rfl, fun _ => List.Sublist.refl _, ?_⟩
    intro t x
    by_cases hx : x = near <;> simp [forgetAt, hx]
  | cons far fars ih =>
    obtain ⟨hr, hother, hsub, hcount⟩ := ih (g.adjustPort d far (·.unlink near))
    have hpeers (e : Direction) (t : Slot) := g.peers_adjustPort_unlink d e far t near
    refine ⟨(g.rewired_adjustPort d far fun p => p.offset_unlink near).trans hr, ?_, ?_, ?_⟩
    · intro e t he
      rw [forgetAt, hother e t he, hpeers, if_neg fun h => he h.1]
    · intro t
      refine (hsub t).trans ?_
      rw [hpeers]
      split
      · exact List.erase_sublist
      · exact List.Sublist.refl _
    · intro t x
      rw [forgetAt, hcount, hpeers]
      by_cases ht : t = far
      · subst ht
        rw [if_pos ⟨rfl, rfl⟩, List.count_erase]
        by_cases hx : x = near
        · subst hx
          rw [if_pos rfl, if_pos rfl, if_pos (beq_self_eq_true x), List.count_cons_self]
          omega
        · rw [if_neg hx, if_neg hx, if_neg (by simpa using Ne.symm hx), Nat.sub_zero]
      · rw [if_neg fun h => ht h.2, List.count_cons_of_ne (Ne.symm ht)]

omit [LawfulPorts φ ν] in
/-- The graph after all connections of a port were removed. -/
theorem disconnectAll_fst {g : Graph ν} {d : Direction} {s : Slot} {p : Port φ}
    (hp : g.port? d s = some p) :
    (g.disconnectAll d s).val.1 =
      ((g.adjustPort d s Port.clear).forgetAt d.opposite s p.opposites).1 := by
  have hopp : g.opposites d s = .ok p.opposites := by
    rw [opposites, port_eq_ok_iff.mpr hp]
    rfl
  rw [disconnectAll, hopp]
  simp only
  split
  · next heq => rw [heq]; rfl
  · next heq => rw [heq]; rfl

omit [LawfulPorts φ ν] in
/-- A port that does not exist is left alone. -/
theorem disconnectAll_eq_self {g : Graph ν} {d : Direction} {s : Slot} (hp : g.port? d s = none) :
    (g.disconnectAll d s).val.1 = g := by
  rw [disconnectAll, opposites]
  cases hp' : g.port d s with
  | error e => rfl
  | ok p => rw [port_eq_ok_iff.mp hp'] at hp; cases hp

/-- `disconnectAll` removes the connections that the port records and no others. -/
theorem removal_disconnectAll (g : Graph ν) (d : Direction) (s : Slot) :
    Removal g (g.disconnectAll d s).val.1 ((g.peers d s).map (.between d s)) := by
  cases hp : g.port? d s with
  | none =>
    rw [disconnectAll_eq_self hp, peers_eq_nil_of_port? hp]
    exact .refl g
  | some p =>
    have hpeers (e : Direction) (t : Slot) := g.peers_adjustPort_clear d e s t
    obtain ⟨hr, hnear, hsub, hcount⟩ :=
      (g.adjustPort d s Port.clear).forgetAt_spec d.opposite s p.opposites
    rw [disconnectAll_fst hp]
    rw [peers_eq_of_port? hp]
    have hne : d ≠ d.opposite := d.opposite_ne.symm
    have hfar (t : Slot) : (g.adjustPort d s Port.clear).peers d.opposite t =
        g.peers d.opposite t := by
      rw [hpeers, if_neg fun h => d.opposite_ne h.1]
    have hclear : Rewired g (g.adjustPort d s Port.clear) :=
      g.rewired_adjustPort d s fun P => P.offset_clear
    refine ⟨hclear.trans hr, Direction.forall_of_opposite d ?_ ?_,
      Direction.forall_of_opposite d ?_ ?_⟩
    · intro t
      rw [hnear d t hne, hpeers]
      split
      · exact List.nil_sublist _
      · exact List.Sublist.refl _
    · intro t
      rw [← hfar t]
      exact hsub t
    · intro t x
      rw [hnear d t hne, hpeers, ← Link.count_farEnds, Link.farEnds_map_between]
      by_cases ht : t = s
      · subst ht
        rw [if_pos ⟨rfl, rfl⟩, if_pos rfl, ← peers_eq_of_port? hp, Nat.sub_self]
        rfl
      · rw [if_neg fun h => ht h.2, if_neg (Ne.symm ht), List.count_nil, Nat.sub_zero]
    · intro t x
      rw [hcount, hfar, Link.between_opposite, ← Link.count_farEnds, Link.farEnds_map_between]
      by_cases hx : x = s
      · rw [if_pos hx, if_pos hx.symm]
      · rw [if_neg hx, if_neg (Ne.symm hx), List.count_nil]

/-- After `disconnectAll` on a consistent graph every trace of the port is gone. -/
theorem peers_disconnectAll {g : Graph ν} (hg : g.Consistent) (d : Direction) (s : Slot)
    (e : Direction) (t : Slot) :
    (g.disconnectAll d s).val.1.peers e t =
      (g.peers e t).filter fun x => !decide ((Link.between e t x).side d = s) := by
  have hr := g.removal_disconnectAll d s
  refine hr.peers_eq_filter (fun l => decide (l.side d = s)) (fun e t x h => ?_)
    (fun l hl => ?_) e t
  · have hs : (Link.between e t x).side d = s := of_decide_eq_true h
    refine Nat.le_of_eq ?_
    rw [hg.count_peers, ← Link.between_side d (Link.between e t x), hs, ← hg.count_peers,
      ← Link.count_farEnds, Link.farEnds_map_between, if_pos rfl]
  · obtain ⟨x, _, rfl⟩ := List.mem_map.mp hl
    simp

/-! ## Severing a vertex from others -/

omit [LawfulPorts φ ν] in
/-- What `sever` leaves of the graph is what `disconnect` leaves of it. -/
theorem val_sever (g : Graph ν) (d : Direction) (p q : Slot) :
    (g.sever d p q).val = (g.disconnect d p q).val.1 := by
  rw [sever, Journaled.val_bind]
  rcases (g.disconnect d p q).val with ⟨h, e | b⟩ <;> rfl

/-- Severing contacts one after the other removes their links. -/
theorem removal_foldl_sever {g : Graph ν} (hg : g.Consistent) (d : Direction)
    (cs : List (Slot × Slot)) :
    Removal g (cs.foldl (fun g c => (g.sever d c.1 c.2).val) g)
      (cs.map fun c => .between d c.1 c.2) := by
  induction cs generalizing g with
  | nil => exact .refl g
  | cons c cs ih =>
    have hc := Removal.disconnect hg d c.1 c.2
    rw [← val_sever] at hc
    exact hc.trans (ih (hc.consistent hg))

/-- The link joins vertex `id` to a vertex that is not to be kept. -/
def severs (id : NodeId) (keep : NodeId → Bool) (l : Link) : Bool :=
  (l.input.node = id && !keep l.output.node) || (l.output.node = id && !keep l.input.node)

theorem severs_iff {id : NodeId} {keep : NodeId → Bool} {l : Link} :
    severs id keep l = true ↔
      ∃ d, (l.side d).node = id ∧ keep (l.side d.opposite).node = false := by
  constructor
  · intro h
    rcases Bool.or_eq_true_iff.mp h with h | h
    · exact ⟨.incoming, by simpa [Link.side, Direction.opposite] using h⟩
    · exact ⟨.outgoing, by simpa [Link.side, Direction.opposite] using h⟩
  · rintro ⟨d, hd⟩
    cases d <;> simp [severs, Link.side, Direction.opposite] at hd ⊢ <;> simp [hd]

/-- Where no vertex is to be kept, all links of a vertex are severed. -/
theorem severs_eq_touches (id : NodeId) (l : Link) :
    severs id (fun _ => false) l = l.touches id := by
  simp [severs, Link.touches, Bool.or_comm]

omit [LawfulPorts φ ν] in
/-- The links of one direction of a vertex that `severWhere` takes up. -/
theorem map_contacts_filter (d : Direction) (id : NodeId) (keep : NodeId → Bool) (v : ν) :
    ((Vertex.contacts d id v).filter fun c => !keep c.2.node).map
        (fun c => Link.between d c.1 c.2) =
      (Vertex.links d id v).filter fun l => !keep (l.side d.opposite).node := by
  rw [Vertex.links, List.filter_map]
  refine congrArg _ (List.filter_congr fun c _ => ?_)
  simp

/-- Severing a vertex of a consistent graph removes its connections to the vertices that are not to
be kept, and no others. -/
theorem removal_severWhere {g : Graph ν} (hg : g.Consistent) {id : NodeId} {v : ν}
    (hv : g.find? id = some v) (keep : NodeId → Bool) :
    Removal g (g.severWhere id keep).val
      (((Vertex.links .incoming id v).filter fun l => !keep (l.side .outgoing).node) ++
        (Vertex.links .outgoing id v).filter fun l => !keep (l.side .incoming).node) := by
  have hin := removal_foldl_sever hg .incoming
    ((Vertex.contacts .incoming id v).filter fun c => !keep c.2.node)
  have hout := removal_foldl_sever (hin.consistent hg) .outgoing
    ((Vertex.contacts .outgoing id v).filter fun c => !keep c.2.node)
  rw [map_contacts_filter] at hin hout
  rw [severWhere, hv]
  simp only [Journaled.val_bind, Journaled.val_foldlM]
  exact hin.trans hout

/-- After severing, lists of opposites are filtered. -/
theorem peers_severWhere {g : Graph ν} (hg : g.Consistent) (id : NodeId) (keep : NodeId → Bool)
    (d : Direction) (s : Slot) :
    (g.severWhere id keep).val.peers d s =
      (g.peers d s).filter fun t => !severs id keep (.between d s t) := by
  cases hv : g.find? id with
  | none =>
    rw [severWhere, hv]
    refine (List.filter_eq_self.mpr fun t ht => ?_).symm
    -- no port of an absent vertex is at either end of a recorded link
    have habsent (e : Direction) (x y : Slot) (hy : y ∈ g.peers e x) : x.node ≠ id := by
      rintro rfl
      rw [peers_eq_nil_of_find? hv] at hy
      cases hy
    have hs := habsent d s t ht
    have ht' := habsent d.opposite t s (hg.mem_comm.mp ht)
    have hside (e : Direction) : ((Link.between d s t).side e).node ≠ id := by
      refine Direction.forall_of_opposite (p := fun e => ((Link.between d s t).side e).node ≠ id)
        d ?_ ?_ e
      · rwa [Link.side_between]
      · rwa [Link.side_opposite_between]
    have hsevers : ¬severs id keep (.between d s t) = true := fun h => by
      obtain ⟨e, he, -⟩ := severs_iff.mp h
      exact hside e he
    simpa using hsevers
  | some v =>
    refine (removal_severWhere hg hv keep).peers_eq_filter (severs id keep)
      (fun d s t h => ?_) (fun l hl => ?_) d s
    · rw [hg.count_peers, List.count_append]
      obtain ⟨e, hid, hkeep⟩ := severs_iff.mp h
      -- the end at the vertex is seen in one of the two lists of its links
      have hcount : ((Vertex.links e id v).filter fun l => !keep (l.side e.opposite).node).count
          (.between d s t) = g.multiplicity (.between d s t) := by
        rw [List.count_filter (by simpa using hkeep), count_links hv, if_pos hid, hg.count_peers,
          Link.between_side]
      cases e with
      | incoming => exact hcount ▸ Nat.le_add_right _ _
      | outgoing => exact hcount ▸ Nat.le_add_left _ _
    · have hmem (e : Direction)
          (hl : l ∈ (Vertex.links e id v).filter fun l => !keep (l.side e.opposite).node) :
          severs id keep l = true := by
        obtain ⟨hl, hkeep⟩ := List.mem_filter.mp hl
        refine severs_iff.mpr ⟨e, ?_, by simpa using hkeep⟩
        by_cases hid : (l.side e).node = id
        · exact hid
        · have hcount := count_links hv e l
          rw [if_neg hid] at hcount
          exact absurd hl (List.count_eq_zero.mp hcount)
      rcases List.mem_append.mp hl with hl | hl
      · exact hmem .incoming hl
      · exact hmem .outgoing hl

/-- The ports of a vertex that was severed from all others list nothing. -/
theorem peers_severWhere_own {g : Graph ν} (hg : g.Consistent) {id : NodeId} (d : Direction)
    {s : Slot} (hs : s.node = id) : (g.severWhere id fun _ => false).val.peers d s = [] := by
  rw [peers_severWhere hg, List.filter_eq_nil_iff]
  intro t _
  rw [severs_eq_touches, (Link.touches_iff d).mpr (.inl (by rw [Link.side_between, hs]))]
  nofun

/-- Severing only rewires a graph. -/
theorem rewired_severWhere {g : Graph ν} (hg : g.Consistent) (id : NodeId) (keep : NodeId → Bool) :
    Rewired g (g.severWhere id keep).val := by
  cases hv : g.find? id with
  | none => rw [severWhere, hv]; exact .refl g
  | some v => exact (removal_severWhere hg hv keep).rewired

/-- Severing keeps a graph consistent. -/
theorem Consistent.severWhere {g : Graph ν} (hg : g.Consistent) (id : NodeId)
    (keep : NodeId → Bool) : (g.severWhere id keep).val.Consistent := by
  cases hv : g.find? id with
  | none => rw [Graph.severWhere, hv]; exact hg
  | some v => exact (removal_severWhere hg hv keep).consistent hg

end PortGraph.Graph
