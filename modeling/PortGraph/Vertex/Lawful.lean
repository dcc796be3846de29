import PortGraph.Vertex

/-!
# Lawful vertices

What a graph relies on when it works with the vertices of a type, in small classes, because most of
its operations rely on little. Overwriting the ports of one direction changes these and nothing else
(`LawfulPorts`). Joining and leaving record the membership (`JoiningVertex`, `RecordingVertex`).
They may replace, add and remove ports. A vertex that was unconnected must still be unconnected when
it has joined (`PassiveVertex`). A vertex that is moved joins and leaves with its connections; here
a port that is connected afterwards was there before, at the same position (`SheddingVertex`).
-/

namespace PortGraph

variable {φ : Flavour} {ν : Type}

/-! ### Ports -/

/-- Vertices of which the ports of one direction can be overwritten, and nothing else changes. -/
class LawfulPorts (φ : outParam Flavour) (ν : Type) [Vertex φ ν] : Prop where
  ports_setPorts (d : Direction) (ps : List (Port φ)) (v : ν)
    (h : ps.length = (Vertex.ports d v).length) : Vertex.ports d (Vertex.setPorts d ps v) = ps
  ports_opposite_setPorts (d : Direction) (ps : List (Port φ)) (v : ν) :
    Vertex.ports d.opposite (Vertex.setPorts d ps v) = Vertex.ports d.opposite v
  membership_setPorts (d : Direction) (ps : List (Port φ)) (v : ν) :
    Vertex.membership (Vertex.setPorts d ps v) = Vertex.membership v

/-! ### Memberships -/

/-- Vertices that record the membership that they are told, whatever they do to their ports. -/
class JoiningVertex (φ : outParam Flavour) (ν : Type) [Vertex φ ν] : Prop where
  membership_onJoin (m : Option Membership) (v : ν) :
    Vertex.membership (Vertex.onJoin m v).val = m

/-- Vertices that also give it up when they leave, and keep it in between. -/
class RecordingVertex (φ : outParam Flavour) (ν : Type) [Vertex φ ν] : Prop
    extends JoiningVertex φ ν where
  membership_setPorts (d : Direction) (ps : List (Port φ)) (v : ν) :
    Vertex.membership (Vertex.setPorts d ps v) = Vertex.membership v
  membership_onLeave (v : ν) : Vertex.membership (Vertex.onLeave v).val = none

/-! ### Connections -/

/-- A vertex has no connections. -/
def Vertex.Unconnected [Vertex φ ν] (v : ν) : Prop :=
  ∀ d, ∀ p ∈ Vertex.ports d v, p.opposites = []

/-- Vertices that come by no connections when they join. -/
class PassiveVertex (φ : outParam Flavour) (ν : Type) [Vertex φ ν] : Prop where
  unconnected_onJoin (m : Option Membership) {v : ν} (h : Vertex.Unconnected v) :
    Vertex.Unconnected (Vertex.onJoin m v).val

/-- Every port of `w` is either unconnected or the port of `v` at the same position. -/
def Sheds [Vertex φ ν] (v w : ν) : Prop :=
  ∀ d i p, Vertex.port? d i w = some p → p.opposites = [] ∨ Vertex.port? d i v = some p

/-- Vertices that at most shed connections when they join and when they leave. -/
class SheddingVertex (φ : outParam Flavour) (ν : Type) [Vertex φ ν] : Prop where
  sheds_onJoin (m : Option Membership) (v : ν) : Sheds v (Vertex.onJoin m v).val
  sheds_onLeave (v : ν) : Sheds v (Vertex.onLeave v).val

namespace Sheds

variable [Vertex φ ν] {u v w : ν}

theorem trans (h : Sheds u v) (h' : Sheds v w) : Sheds u w := by
  intro d i p hp
  rcases h' d i p hp with hp | hp
  · exact .inl hp
  · exact h d i p hp

/-- There is nothing to shed for a vertex without connections. -/
theorem unconnected (h : Sheds v w) (hv : Vertex.Unconnected v) : Vertex.Unconnected w := by
  intro d p hp
  obtain ⟨i, hi⟩ := List.mem_iff_getElem?.mp hp
  rcases h d i p hi with hfree | hsame
  · exact hfree
  · exact hv d p (List.mem_iff_getElem?.mpr ⟨i, hsame⟩)

end Sheds

instance [Vertex φ ν] [SheddingVertex φ ν] : PassiveVertex φ ν where
  unconnected_onJoin m v h := (SheddingVertex.sheds_onJoin m v).unconnected h

/-- Vertices that keep all of these laws. -/
class LawfulVertex (φ : outParam Flavour) (ν : Type) [Vertex φ ν] : Prop
    extends LawfulPorts φ ν, RecordingVertex φ ν, SheddingVertex φ ν

/-! ### Rows of ports -/

theorem Port.opposites_of_mem_row {count : Nat} {p : Port φ} (h : p ∈ Port.row count) :
    p.opposites = [] := by
  obtain ⟨_, _, rfl⟩ := List.mem_map.mp h
  rfl

end PortGraph
