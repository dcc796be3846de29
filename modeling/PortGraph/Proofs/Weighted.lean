import PortGraph.Node
import PortGraph.Proofs.Copying
import PortGraph.Proofs.Moving

/-!
# What makes up a weighted vertex

The ports of a vertex are known by their offsets and by the opposites that they list
(`Vertex.ports_ext`). A weighted vertex consists of its ports, its weight and its binding, and of
these the last two are not changed by a rewiring. So two weighted vertices that a vertex was rewired
to are equal once they list the same opposites (`Node.eq_of_rewired`), and so are two graphs of them
(`Graph.eq_of_rewired`).

A copy of a weighted vertex has the weight and the offsets of the original (`Node.Copies`); what it
lists is another matter.
-/

namespace PortGraph

/-! ## Ports and what they list -/

namespace Vertex

variable {φ : Flavour} {ν : Type} [Vertex φ ν]

/-- Ports with the same offsets and the same opposites are the same. -/
theorem ports_ext {v w : ν} {d : Direction}
    (hoffsets : (ports d v).map Port.offset = (ports d w).map Port.offset)
    (hpeers : ∀ i, peers d i v = peers d i w) : ports d v = ports d w := by
  apply List.ext_getElem?
  intro i
  have hoffset := congrArg (·[i]?) hoffsets
  simp only [List.getElem?_map] at hoffset
  have hlists := hpeers i
  unfold peers port? at hlists
  cases hp : (ports d v)[i]? with
  | none =>
    rw [hp] at hoffset
    exact (Option.map_eq_none_iff.mp hoffset.symm).symm
  | some p =>
    rw [hp] at hoffset hlists
    obtain ⟨q, hq, hqp⟩ := Option.map_eq_some_iff.mp hoffset.symm
    rw [hq] at hlists
    rw [hq, Port.ext hqp.symm hlists]

end Vertex

/-! ## Weighted vertices -/

namespace Node

variable {φ : Flavour} {ω : Type} {u v w : Node φ ω}

/-- A weighted vertex consists of its weight, its ports and its binding. -/
theorem ext_ports (hweight : v.weight = w.weight) (hbinding : v.binding = w.binding)
    (hports : ∀ d, Vertex.ports d v = Vertex.ports d w) : v = w := by
  obtain ⟨weight, inputs, outputs, binding⟩ := v
  obtain ⟨weight', inputs', outputs', binding'⟩ := w
  have hinputs : inputs = inputs' := hports .incoming
  have houtputs : outputs = outputs' := hports .outgoing
  cases hweight
  cases hbinding
  rw [hinputs, houtputs]

theorem weight_eq_of_rewired (h : Vertex.Rewired v w) : w.weight = v.weight :=
  h.observe Node.weight fun d _ _ => by cases d <;> rfl

theorem binding_eq_of_rewired (h : Vertex.Rewired v w) : w.binding = v.binding :=
  h.observe Node.binding fun d _ _ => by cases d <;> rfl

/-- A rewiring is known by what it makes the ports list. -/
theorem eq_of_rewired (hv : Vertex.Rewired u v) (hw : Vertex.Rewired u w)
    (hpeers : ∀ d i, Vertex.peers d i v = Vertex.peers d i w) : v = w := by
  refine ext_ports ?_ ?_ fun d => Vertex.ports_ext ?_ (hpeers d)
  · rw [weight_eq_of_rewired hv, weight_eq_of_rewired hw]
  · rw [binding_eq_of_rewired hv, binding_eq_of_rewired hw]
  · rw [hv.offsets, hw.offsets]

/-- A weighted vertex that moves to another graph only records its new membership. -/
theorem rejoin_eq (m : Membership) (v : Node φ ω) :
    Vertex.rejoin m v = { v with binding := ⟨some m⟩ } := rfl

/-! ## Copies -/

/-- `w` has the weight of `v`, and ports with the same offsets. -/
structure Copies (v w : Node φ ω) : Prop where
  weight_eq : w.weight = v.weight
  offsets (d : Direction) :
    (Vertex.ports d w).map Port.offset = (Vertex.ports d v).map Port.offset

/-- A copy is one also after it was rewired. -/
theorem Copies.rewired (hv : Copies u v) (hw : Vertex.Rewired v w) : Copies u w where
  weight_eq := (weight_eq_of_rewired hw).trans hv.weight_eq
  offsets d := (hw.offsets d).trans (hv.offsets d)

/-- What joins a graph as a copy of a weighted vertex is one. -/
theorem copies_joinedCopy (id : GraphId) (k : NodeId) (v : Node φ ω) :
    Copies v (Graph.joinedCopy id k v).val where
  weight_eq := rfl
  offsets d := by
    have hcopy : Vertex.ports d (Vertex.copy v) = (Vertex.ports d v).map Port.copy := by
      cases d <;> rfl
    have hjoin := SteadyVertex.ports_onJoin (some ⟨id, k⟩)
      (Vertex.clearLinks (Vertex.copy v)) d
    unfold Graph.joinedCopy
    rw [hjoin, Vertex.clearLinks, Vertex.ports_mapPorts, hcopy, List.map_map, List.map_map]
    rfl

end Node

/-! ## Graphs of weighted vertices -/

namespace Graph

variable {φ : Flavour} {ω : Type} {f g h : Graph (Node φ ω)}

/-- A vertex became the same in two rewirings of a graph if its ports list the same in both. -/
theorem find?_eq_of_rewired (hg : Rewired f g) (hh : Rewired f h) {k : NodeId}
    (hpeers : ∀ d i, g.peers d ⟨k, i⟩ = h.peers d ⟨k, i⟩) : g.find? k = h.find? k := by
  cases hu : f.find? k with
  | none => rw [hg.find?_eq_none hu, hh.find?_eq_none hu]
  | some u =>
    obtain ⟨v, hv, huv⟩ := hg.exists_find? hu
    obtain ⟨w, hw, huw⟩ := hh.exists_find? hu
    have hlists (d : Direction) (i : Nat) : Vertex.peers d i v = Vertex.peers d i w := by
      have hdi := hpeers d i
      rwa [peers_eq_of_find? hv, peers_eq_of_find? hw] at hdi
    rw [hv, hw, Node.eq_of_rewired huv huw hlists]

/-- Rewirings of a graph are known by what they make its ports list. -/
theorem eq_of_rewired (hg : Rewired f g) (hh : Rewired f h)
    (hpeers : ∀ d s, g.peers d s = h.peers d s) : g = h :=
  ext_find? (hg.id_eq.trans hh.id_eq.symm) (hg.next_eq.trans hh.next_eq.symm) fun _ =>
    find?_eq_of_rewired hg hh fun d _ => hpeers d _

end Graph

end PortGraph
