import PortGraph.Address

/-!
# Errors

A request that names a missing vertex or port, or that contradicts what the ports record, is refused
with one of these causes. The words of each are in `message`, its parts in `inspect`.
-/

namespace PortGraph

/-- Why a request about the connections of ports is refused. -/
inductive ConnectError where
  /-- The vertex of a port does not exist. -/
  | unknownNode (node : NodeId)
  /-- The vertex exists, the port does not. -/
  | unknownPort (port : Address)
  /-- A port for a single connection is connected to another port. -/
  | alreadyConnected (port current : Address)
  /-- The two ports do not agree on whether they are connected. -/
  | inconsistentConnection (port opposite : Address)
deriving DecidableEq

namespace ConnectError

/-- The words of an error. -/
def message : ConnectError → String
  | unknownNode node => s!"unknown node {node.text}"
  | unknownPort port => s!"unknown port {port.text}"
  | alreadyConnected port current => s!"port {port.text} is already connected to {current.text}"
  | inconsistentConnection port opposite =>
    s!"inconsistent connection between {port.text} and {opposite.text}"

/-- The structural text of an error. -/
def inspect : ConnectError → String
  | unknownNode node => Text.tagged "UnknownNode" [node.inspect]
  | unknownPort port => Text.tagged "UnknownPort" [port.inspect]
  | alreadyConnected port current =>
    Text.record "AlreadyConnected" [("port", port.inspect), ("current", current.inspect)]
  | inconsistentConnection port opposite =>
    Text.record "InconsistentConnection" [("port", port.inspect), ("opposite", opposite.inspect)]

end ConnectError

/-- Why a request about the vertices of a graph is refused. -/
inductive GraphError where
  /-- No vertex has the identifier. -/
  | notFound (id : NodeId)
  /-- The identifier for a new vertex is in use. -/
  | conflictingId (id : NodeId)
  /-- A vertex to be carried to another graph is not in the source. -/
  | migrationTargetNotInSource (id : NodeId)
  /-- A connection could not be made. -/
  | connect (error : ConnectError)
deriving DecidableEq

namespace GraphError

/-- The words of an error. -/
def message : GraphError → String
  | notFound id => s!"no vertex with id {id.text}"
  | conflictingId id => s!"vertex id {id.text} is already in use"
  | migrationTargetNotInSource id => s!"vertex {id.text} is not in the source graph"
  | connect error => error.message

/-- The structural text of an error. -/
def inspect : GraphError → String
  | notFound id => Text.tagged "NotFound" [id.inspect]
  | conflictingId id => Text.tagged "ConflictingId" [id.inspect]
  | migrationTargetNotInSource id => Text.tagged "MigrationTargetNotInSource" [id.inspect]
  | connect error => Text.tagged "Connect" [error.inspect]

end GraphError

/-- The failure of a caller that takes a vertex to be present which is not. -/
inductive IndexFault where
  | invalidId
deriving DecidableEq

/-- The words of the failure. -/
def IndexFault.message : IndexFault → String
  | invalidId => "invalid vertex id"

end PortGraph
