import PortGraph.Plan
import PortGraph.Proofs.Agreement
import PortGraph.Proofs.Hooks
import PortGraph.Proofs.Moving

/-!
# Connecting from either end

A connection can be made and removed from either of its ends. Which of them is named first makes no
difference to the graph that is left, and none to whether a connection was made, only to the error
that is reported if both ends refuse it (`EitherEnd`). That the vertices at the ends are changed in
another order is of no consequence where inputs and outputs are kept apart (`SidedVertex`).
-/

namespace PortGraph

/-! ## Inputs and outputs -/

/-- Vertices whose inputs and outputs can be overwritten in either order. -/
class SidedVertex (φ : outParam Flavour) (ν : Type) [Vertex φ ν] : Prop
    extends LawfulPorts φ ν where
  setPorts_comm (d : Direction) (ps qs : List (Port φ)) (v : ν) :
    Vertex.setPorts d ps (Vertex.setPorts d.opposite qs v) =
      Vertex.setPorts d.opposite qs (Vertex.setPorts d ps v)

variable {φ : Flavour}

instance {ω : Type} : SidedVertex φ (Node φ ω) where
  setPorts_comm d _ _ _ := by cases d <;> rfl

instance : SidedVertex φ (Operator φ) where
  setPorts_comm d _ _ _ := by cases d <;> rfl

instance : SidedVertex φ (PlanItem φ) where
  setPorts_comm d ps qs i :=
    congrArg (fun o => { i with operator := o }) (SidedVertex.setPorts_comm d ps qs i.operator)

variable {ν : Type} [Vertex φ ν]

/-- An input and an output of a vertex can be changed in either order. -/
theorem Vertex.adjustPort_comm [SidedVertex φ ν] (d : Direction) (i j : Nat)
    (f f' : Port φ → Port φ) (v : ν) :
    adjustPort d i f (adjustPort d.opposite j f' v) =
      adjustPort d.opposite j f' (adjustPort d i f v) := by
  have hother := LawfulPorts.ports_opposite_setPorts d ((ports d v).modify i f) v
  have hsame := LawfulPorts.ports_opposite_setPorts d.opposite
    ((ports d.opposite v).modify j f') v
  rw [Direction.opposite_opposite] at hsame
  unfold adjustPort
  rw [hother, hsame]
  exact SidedVertex.setPorts_comm d _ _ v

namespace Graph

variable {g : Graph ν} {d : Direction} {p q : Slot}

/-- Two opposite ports can be changed in either order. -/
theorem adjustPort_comm [SidedVertex φ ν] (g : Graph ν) (d : Direction) (p q : Slot)
    (f f' : Port φ → Port φ) :
    (g.adjustPort d p f).adjustPort d.opposite q f' =
      (g.adjustPort d.opposite q f').adjustPort d p f := by
  refine ext_find? rfl rfl fun k => ?_
  simp only [adjustPort, find?_adjust]
  by_cases hp : k = p.node
  · by_cases hq : k = q.node
    · rw [if_pos hp, if_pos hq, if_pos hp, if_pos hq, Option.map_map, Option.map_map]
      congr 1
      funext v
      exact (Vertex.adjustPort_comm d p.offset q.offset f f' v).symm
    · rw [if_pos hp, if_neg hq, if_neg hq, if_pos hp]
  · rw [if_neg hp, if_neg hp]

theorem join_comm [SidedVertex φ ν] (g : Graph ν) (d : Direction) (p q : Slot) :
    g.join d p q = g.join d.opposite q p := by
  unfold join
  rw [adjustPort_comm, Direction.opposite_opposite]

theorem part_comm [SidedVertex φ ν] (g : Graph ν) (d : Direction) (p q : Slot) :
    g.part d p q = g.part d.opposite q p := by
  unfold part
  rw [adjustPort_comm, Direction.opposite_opposite]

/-! ## Connecting -/

/-- The port of direction `d` at `s` cannot be connected to `other`, for the reason that the error
names: it does not exist, or it is connected already, and not to `other`. -/
inductive Refuses (g : Graph ν) (d : Direction) (s other : Slot) : ConnectError → Prop where
  | unknownNode (hnode : ¬g.contains s.node = true) : Refuses g d s other (.unknownNode s.node)
  | unknownPort (hnode : g.contains s.node = true) (hport : ¬g.HasPort d s) :
    Refuses g d s other (.unknownPort (s.at d))
  | alreadyConnected {current : Slot} (hφ : φ = .single) (hcurrent : g.peers d s = [current])
    (hne : current ≠ other) :
    Refuses g d s other (.alreadyConnected (s.at d) (current.at d.opposite))

/-- Where a port is not found there is none. -/
theorem refuses_of_port_eq_error {e : ConnectError} (h : g.port d p = .error e) :
    g.Refuses d p q e := by
  cases hv : g.find? p.node with
  | none =>
    rw [port, hv] at h
    cases h
    exact .unknownNode (not_contains_iff.mpr hv)
  | some v =>
    have hnone : ¬g.HasPort d p := by
      rintro ⟨P, hP⟩
      rw [port_eq_ok_iff.mpr hP] at h
      cases h
    rw [port, hv] at h
    simp only at h
    split at h
    · cases h
      exact .unknownPort (contains_iff.mpr ⟨v, hv⟩) hnone
    · cases h

/-- An end objects to a connection for a reason that is there. -/
theorem refuses_of_linkCheck_eq_error {e : ConnectError} (h : g.linkCheck d p q = .error e) :
    g.Refuses d p q e := by
  unfold linkCheck at h
  cases hP : g.port d p with
  | error e' =>
    rw [hP] at h
    cases h
    exact refuses_of_port_eq_error hP
  | ok P =>
    rw [hP] at h
    change P.checkLink d p q = .error e at h
    have hpeers := peers_eq_of_port? (port_eq_ok_iff.mp hP)
    obtain ⟨offset, opposites, hlen⟩ := P
    cases φ with
    | multi => cases h
    | single =>
      rcases opposites with _ | ⟨current, _ | ⟨another, rest⟩⟩
      · cases h
      · by_cases hc : current = q
        · simp [Port.checkLink, hc] at h
        · simp [Port.checkLink, hc] at h
          exact h ▸ .alreadyConnected rfl hpeers hc
      · exact absurd (hlen rfl) (by simp)

/-- A connection is made exactly if both ports exist and have room. -/
theorem connect_eq_true_iff : (g.connect d p q).val.2 = .ok true ↔ g.Admits (.between d p q) := by
  constructor
  · intro h
    by_contra hadmits
    exact (connect_of_not_admits hadmits).2 h
  · intro hadmits
    rw [connect_of_admits hadmits]

/-- Ports of a consistent graph are found connected already exactly if they are, and single. -/
theorem connect_eq_false_iff (hg : g.Consistent) :
    (g.connect d p q).val.2 = .ok false ↔ φ = .single ∧ q ∈ g.peers d p := by
  have hcomm := linkCheck_eq_ok_false_comm hg d p q
  have houtcome := g.connect_outcome d p q
  rw [← linkCheck_eq_ok_false_iff]
  generalize g.connect d p q = c at houtcome ⊢
  cases houtcome with
  | near hp => exact iff_of_false nofun (by rw [hp]; nofun)
  | far hq => exact iff_of_false nofun (by rw [hcomm, hq]; nofun)
  | joined hp => exact iff_of_false nofun (by rw [hp]; nofun)
  | found hp => exact iff_of_true rfl hp
  | @mismatch x hp hq =>
    rw [hp, hq] at hcomm
    cases x <;> simp at hcomm

/-- The error names what is wrong at one of the two ends. -/
theorem connect_eq_error (hg : g.Consistent) {e : ConnectError}
    (h : (g.connect d p q).val.2 = .error e) :
    g.Refuses d p q e ∨ g.Refuses d.opposite q p e := by
  have hagree := (connect_agrees hg d p q).2
  have houtcome := g.connect_outcome d p q
  generalize g.connect d p q = c at houtcome h hagree
  cases houtcome with
  | near hp => exact .inl (refuses_of_linkCheck_eq_error (hp.trans h))
  | far hq => exact .inr (refuses_of_linkCheck_eq_error (hq.trans h))
  | joined | found => cases h
  | mismatch => exact absurd rfl (hagree _ _)

/-! ## Disconnecting -/

/-- A connection is removed exactly if there is one. -/
theorem disconnect_eq_true_iff (hg : g.Consistent) :
    (g.disconnect d p q).val.2 = .ok true ↔ 0 < g.multiplicity (.between d p q) := by
  have hlinks : g.Links (.between d p q) ↔ q ∈ g.peers d p := by
    rw [links_between_iff, ← hg.mem_comm, and_self_iff]
  rw [← hg.count_peers, List.count_pos_iff, ← hlinks]
  constructor
  · intro h
    by_contra hnot
    exact (disconnect_of_not_links hnot).2 h
  · intro h
    rw [disconnect_of_links h]

/-! ## Either end -/

/-- For the connections of `g` it makes no difference which end is named first. -/
structure EitherEnd (g : Graph ν) : Prop where
  /-- The same graph is left, -/
  connect_graph (d : Direction) (p q : Slot) :
    (g.connect d p q).val.1 = (g.connect d.opposite q p).val.1
  /-- with the same answer, or with an error either way. -/
  connect_answer (d : Direction) (p q : Slot) :
    (∃ x, (g.connect d p q).val.2 = .ok x ∧ (g.connect d.opposite q p).val.2 = .ok x) ∨
      ∃ e e', (g.connect d p q).val.2 = .error e ∧ (g.connect d.opposite q p).val.2 = .error e'
  /-- A connection is made if both ports exist and, being single, are free. -/
  connect_true_iff (d : Direction) (p q : Slot) : (g.connect d p q).val.2 = .ok true ↔
    g.HasPort d p ∧ g.HasPort d.opposite q ∧
      (φ = .single → g.peers d p = [] ∧ g.peers d.opposite q = [])
  /-- Single ports may be connected to each other already. -/
  connect_false_iff (d : Direction) (p q : Slot) : (g.connect d p q).val.2 = .ok false ↔
    φ = .single ∧ g.peers d p = [q] ∧ g.peers d.opposite q = [p]
  connect_error {d : Direction} {p q : Slot} {e : ConnectError}
    (h : (g.connect d p q).val.2 = .error e) : g.Refuses d p q e ∨ g.Refuses d.opposite q p e
  disconnect_graph (d : Direction) (p q : Slot) :
    (g.disconnect d p q).val.1 = (g.disconnect d.opposite q p).val.1
  /-- A connection is removed if there is one, from either end. -/
  disconnect_true_iff (d : Direction) (p q : Slot) :
    ((g.disconnect d p q).val.2 = .ok true ↔ 0 < g.multiplicity (.between d p q)) ∧
      ((g.disconnect d.opposite q p).val.2 = .ok true ↔ 0 < g.multiplicity (.between d p q))

/-- Two ports can be connected if they exist and, being single, are free. -/
theorem admits_between_iff_free : g.Admits (.between d p q) ↔
    g.HasPort d p ∧ g.HasPort d.opposite q ∧
      (φ = .single → g.peers d p = [] ∧ g.peers d.opposite q = []) := by
  rw [admits_between_iff, linkCheck_eq_ok_true_iff, linkCheck_eq_ok_true_iff]
  cases φ with
  | single => simp [and_assoc, and_left_comm]
  | multi => simp

/-- A single port is connected to `q` exactly if it lists nothing else. -/
theorem mem_peers_iff_of_single (hφ : φ = .single) : q ∈ g.peers d p ↔ g.peers d p = [q] := by
  constructor
  · intro hq
    have hlen := g.length_peers_le d p hφ
    obtain ⟨t, ht⟩ := List.length_eq_one_iff.mp
      (Nat.le_antisymm hlen (List.length_pos_of_mem hq))
    rw [ht, List.mem_singleton] at hq
    rw [ht, hq]
  · intro hq
    rw [hq]
    exact .head _

/-- Connecting leaves the same graph from either end. -/
theorem connect_graph_comm [SidedVertex φ ν] (g : Graph ν) (d : Direction) (p q : Slot) :
    (g.connect d p q).val.1 = (g.connect d.opposite q p).val.1 := by
  by_cases h : g.Admits (.between d p q)
  · have h' : g.Admits (.between d.opposite q p) := by rwa [Link.between_opposite]
    rw [connect_of_admits h, connect_of_admits h', join_comm]
  · have h' : ¬g.Admits (.between d.opposite q p) := by rwa [Link.between_opposite]
    rw [(connect_of_not_admits h).1, (connect_of_not_admits h').1]

/-- Disconnecting leaves the same graph from either end. -/
theorem disconnect_graph_comm [SidedVertex φ ν] (g : Graph ν) (d : Direction) (p q : Slot) :
    (g.disconnect d p q).val.1 = (g.disconnect d.opposite q p).val.1 := by
  by_cases h : g.Links (.between d p q)
  · have h' : g.Links (.between d.opposite q p) := by rwa [Link.between_opposite]
    rw [disconnect_of_links h, disconnect_of_links h', part_comm]
  · have h' : ¬g.Links (.between d.opposite q p) := by rwa [Link.between_opposite]
    rw [(disconnect_of_not_links h).1, (disconnect_of_not_links h').1]

/-- Connecting has the same answer from either end, or an error. -/
theorem connect_answer_comm (hg : g.Consistent) (d : Direction) (p q : Slot) :
    (∃ x, (g.connect d p q).val.2 = .ok x ∧ (g.connect d.opposite q p).val.2 = .ok x) ∨
      ∃ e e', (g.connect d p q).val.2 = .error e ∧
        (g.connect d.opposite q p).val.2 = .error e' := by
  have htrue : (g.connect d p q).val.2 = .ok true ↔
      (g.connect d.opposite q p).val.2 = .ok true := by
    rw [connect_eq_true_iff, connect_eq_true_iff, Link.between_opposite]
  have hfalse : (g.connect d p q).val.2 = .ok false ↔
      (g.connect d.opposite q p).val.2 = .ok false := by
    rw [connect_eq_false_iff hg, connect_eq_false_iff hg, hg.mem_comm]
  generalize (g.connect d p q).val.2 = answer at htrue hfalse ⊢
  generalize (g.connect d.opposite q p).val.2 = answer' at htrue hfalse ⊢
  rcases answer with e | ⟨_ | _⟩
  · rcases answer' with e' | ⟨_ | _⟩
    · exact .inr ⟨e, e', rfl, rfl⟩
    · exact absurd (hfalse.mpr rfl) nofun
    · exact absurd (htrue.mpr rfl) nofun
  · exact .inl ⟨false, rfl, hfalse.mp rfl⟩
  · exact .inl ⟨true, rfl, htrue.mp rfl⟩

/-- The connections of a consistent graph can be made and removed from either end. -/
theorem either_end [SidedVertex φ ν] (hg : g.Consistent) : EitherEnd g where
  connect_graph := g.connect_graph_comm
  connect_answer := connect_answer_comm hg
  connect_true_iff _ _ _ := connect_eq_true_iff.trans admits_between_iff_free
  connect_false_iff d p q := by
    rw [connect_eq_false_iff hg]
    constructor
    · rintro ⟨hφ, hq⟩
      have hp := hg.mem_comm.mp hq
      exact ⟨hφ, (mem_peers_iff_of_single hφ).mp hq, (mem_peers_iff_of_single hφ).mp hp⟩
    · rintro ⟨hφ, hq, -⟩
      exact ⟨hφ, (mem_peers_iff_of_single hφ).mpr hq⟩
  connect_error := connect_eq_error hg
  disconnect_graph := g.disconnect_graph_comm
  disconnect_true_iff d p q := by
    refine ⟨disconnect_eq_true_iff hg, ?_⟩
    rw [disconnect_eq_true_iff hg, Link.between_opposite]

/-- Two couples in one graph. -/
def foursome (id : GraphId) : Graph (Operator .single) :=
  ((couple (.idle "") (.idle "") .first).copyInto (couple (.idle "") (.idle "") id)).val.1

/-- The first of one couple cannot be connected to the second of the other. Which end is said to be
taken depends on the end that is named first. -/
theorem either_end_foursome :
    let g := foursome ⟨2⟩
    let a : NodeId := ⟨1, by decide⟩
    let b : NodeId := ⟨2, by decide⟩
    let c : NodeId := ⟨3, by decide⟩
    let d : NodeId := ⟨4, by decide⟩
    g.Consistent ∧ EitherEnd g ∧
      (g.connect .outgoing ⟨a, 0⟩ ⟨d, 0⟩).val.2 =
        .error (.alreadyConnected (a.output 0) (b.input 0)) ∧
      (g.connect .incoming ⟨d, 0⟩ ⟨a, 0⟩).val.2 =
        .error (.alreadyConnected (d.input 0) (c.output 0)) ∧
      (g.connect .incoming ⟨b, 0⟩ ⟨a, 0⟩).val.2 = .ok false ∧
      (g.disconnect .incoming ⟨b, 0⟩ ⟨a, 0⟩).val.2 = .ok true := by
  intro g a b c d
  have hg : g.Consistent := (sound_couple _ _ _).consistent.copyInto _
  exact ⟨hg, either_end hg, by decide, by decide, by decide, by decide⟩

end Graph

end PortGraph
