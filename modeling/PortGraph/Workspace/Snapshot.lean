import PortGraph.Workspace.Workpiece

/-!
# Snapshots

What can be seen of a vertex or a graph at one moment: labels, owners, and the opposites of every
port.
-/

namespace PortGraph

/-- What can be seen of a port. -/
structure PortSnapshot where
  offset : Nat
  opposites : List Slot
deriving DecidableEq

/-- What can be seen of a vertex. -/
structure VertexSnapshot where
  label : String
  owner : Option Membership
  inputs : List PortSnapshot
  outputs : List PortSnapshot
deriving DecidableEq

/-- What can be seen of a graph. -/
structure GraphSnapshot where
  id : GraphId
  vertices : List (NodeId × VertexSnapshot)
deriving DecidableEq

variable {φ : Flavour} {ν : Type} [Workpiece φ ν]

/-- The snapshot of a port. -/
def Port.snapshot (p : Port φ) : PortSnapshot := ⟨p.offset, p.opposites⟩

/-- The snapshot of a vertex. -/
def VertexSnapshot.of (v : ν) : VertexSnapshot where
  label := Workpiece.label v
  owner := Vertex.membership v
  inputs := (Vertex.ports .incoming v).map Port.snapshot
  outputs := (Vertex.ports .outgoing v).map Port.snapshot

/-- The snapshot of a graph. -/
def GraphSnapshot.of (g : Graph ν) : GraphSnapshot where
  id := g.id
  vertices := g.vertices.entries.map fun (id, v) => (id, .of v)

end PortGraph
