import PortGraph.Journal
import PortGraph.Port

/-!
# Vertices

What a type must offer so that its values can be the vertices of a graph: its ports in either
direction, a way to overwrite them, its membership, and what it does when it joins or leaves a
graph. From the ports follow the links of a vertex (`contacts`, `links`); clearing and renaming
change all of them at once.
-/

namespace PortGraph

/-- The values of `ν` can be vertices of a graph, with ports of flavour `φ`. -/
class Vertex (φ : outParam Flavour) (ν : Type) where
  /-- The ports of one direction, by position. -/
  ports : Direction → ν → List (Port φ)
  /-- Overwrites the ports of one direction by as many others. -/
  setPorts : Direction → List (Port φ) → ν → ν
  /-- The graph the vertex is bound to, and its identifier there. -/
  membership : ν → Option Membership
  /-- Tells the vertex that it joined a graph, or that it belongs to none. -/
  onJoin : Option Membership → ν → Journaled ν
  /-- Tells the vertex that it leaves its graph. -/
  onLeave : ν → Journaled ν := onJoin none
  /-- A copy of the vertex: an orphan without connections. -/
  copy : ν → ν

namespace Vertex

variable {φ : Flavour} {ν : Type} [Vertex φ ν]

/-! ### Changing ports -/

/-- The port at a position. -/
def port? (d : Direction) (offset : Nat) (v : ν) : Option (Port φ) := (ports d v)[offset]?

/-- Changes the port at a position, if there is one. -/
def adjustPort (d : Direction) (offset : Nat) (f : Port φ → Port φ) (v : ν) : ν :=
  setPorts d ((ports d v).modify offset f) v

/-- Changes all ports. -/
def mapPorts (f : Port φ → Port φ) (v : ν) : ν :=
  let w := setPorts .incoming ((ports .incoming v).map f) v
  setPorts .outgoing ((ports .outgoing w).map f) w

/-- Forgets all connections. -/
def clearLinks (v : ν) : ν := mapPorts Port.clear v

/-- Renames the vertices of all opposites, forgetting those whose vertex has no new name. -/
def renameLinks (name : NodeId → Option NodeId) (v : ν) : ν := mapPorts (Port.rename · name) v

/-! ### Links -/

/-- What the ports of direction `d` record: each port of the vertex, under the identifier `id`, with
each of its opposites, in port order. -/
def contacts (d : Direction) (id : NodeId) (v : ν) : List (Slot × Slot) :=
  (ports d v).zipIdx.flatMap fun (port, offset) => port.opposites.map fun far => (⟨id, offset⟩, far)

/-- The links recorded by the ports of direction `d`. -/
def links (d : Direction) (id : NodeId) (v : ν) : List Link :=
  (contacts d id v).map fun (own, far) => .between d own far

/-- The vertices connected to the ports of direction `d`, each once, in port order. -/
def neighbours (d : Direction) (v : ν) : List NodeId :=
  ((ports d v).flatMap fun port => port.opposites.map Slot.node).eraseDups

/-- Whether any port of direction `d` is connected. -/
def isConnected (d : Direction) (v : ν) : Bool := (ports d v).any Port.isConnected

/-! ### Texts -/

/-- The text of a vertex by its label and the numbers of its ports. -/
def summary (label : String) (v : ν) : String :=
  s!"{label} ({(ports .incoming v).length} in, {(ports .outgoing v).length} out)"

end Vertex

end PortGraph
