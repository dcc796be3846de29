import PortGraph.Graph.Basic

/-!
# Connections

All connections are made and removed here, at both ends. A port is named by its direction and slot,
and the opposite port, which has the opposite direction, by its slot. A request is checked at both
ends before either is changed.
-/

namespace PortGraph.Graph

variable {φ : Flavour} {ν : Type} [Vertex φ ν]

/-! ### Ports of stored vertices -/

/-- The port at an address, or what is unknown about it. -/
def port (g : Graph ν) (d : Direction) (s : Slot) : Except ConnectError (Port φ) :=
  match g.find? s.node with
  | none => .error (.unknownNode s.node)
  | some v =>
    match Vertex.port? d s.offset v with
    | none => .error (.unknownPort (s.at d))
    | some p => .ok p

/-- The opposites of a port. -/
def opposites (g : Graph ν) (d : Direction) (s : Slot) : Except ConnectError (List Slot) :=
  (g.port d s).map Port.opposites

/-- Changes the port at an address, if there is one. -/
def adjustPort (g : Graph ν) (d : Direction) (s : Slot) (f : Port φ → Port φ) : Graph ν :=
  g.adjust s.node (Vertex.adjustPort d s.offset f)

/-- The distinct vertices connected to the ports of direction `d` of a vertex, in port order; none
for an unknown vertex. -/
def neighbours (g : Graph ν) (d : Direction) (id : NodeId) : List NodeId :=
  match g.find? id with
  | some v => Vertex.neighbours d v
  | none => []

/-- Whether any port of direction `d` of a vertex is connected. -/
def isConnected (g : Graph ν) (d : Direction) (id : NodeId) : Bool :=
  match g.find? id with
  | some v => Vertex.isConnected d v
  | none => false

/-! ### Connecting -/

/-- Records a connection at both ends. -/
def join (g : Graph ν) (d : Direction) (port opposite : Slot) : Graph ν :=
  (g.adjustPort d port (·.link opposite)).adjustPort d.opposite opposite (·.link port)

/-- Connects two ports. The answer is `true` for a new connection; `false` says that two single
ports are connected to each other already. -/
def connect (g : Graph ν) (d : Direction) (port opposite : Slot) :
    Journaled (Graph ν × Except ConnectError Bool) :=
  let free := (g.port d port).bind fun p => p.checkLink d port opposite
  let freeOpposite :=
    (g.port d.opposite opposite).bind fun p => p.checkLink d.opposite opposite port
  match free, freeOpposite with
  | .error e, _ => pure (g, .error e)
  | .ok _, .error e => pure (g, .error e)
  | .ok true, .ok true => do
    Journaled.report (.connected g.id (port.at d) (opposite.at d.opposite))
    return (g.join d port opposite, .ok true)
  | .ok false, .ok false => pure (g, .ok false)
  | .ok _, .ok _ => do
    Journaled.report (.connectMismatch (port.at d) (opposite.at d.opposite))
    return (g, .error (.inconsistentConnection (port.at d) (opposite.at d.opposite)))

/-- Connects an output port to an input port. -/
def link (g : Graph ν) (l : Link) : Journaled (Graph ν × Except ConnectError Bool) :=
  g.connect .outgoing l.output l.input

/-! ### Disconnecting -/

/-- Forgets one connection at both ends. -/
def part (g : Graph ν) (d : Direction) (port opposite : Slot) : Graph ν :=
  (g.adjustPort d port (·.unlink opposite)).adjustPort d.opposite opposite (·.unlink port)

/-- Removes one connection between two ports. The answer tells whether there was one. -/
def disconnect (g : Graph ν) (d : Direction) (port opposite : Slot) :
    Journaled (Graph ν × Except ConnectError Bool) :=
  let linked := (g.port d port).bind fun p => p.checkUnlink d port opposite
  let linkedOpposite := (g.opposites d.opposite opposite).map (·.contains port)
  match linked, linkedOpposite with
  | .error e, _ => pure (g, .error e)
  | .ok _, .error e => pure (g, .error e)
  | .ok true, .ok true => do
    Journaled.report (.disconnected g.id (port.at d) (opposite.at d.opposite))
    return (g.part d port opposite, .ok true)
  | .ok false, .ok false => pure (g, .ok false)
  | .ok _, .ok _ => do
    Journaled.report (.disconnectMismatch (port.at d) (opposite.at d.opposite))
    return (g, .error (.inconsistentConnection (port.at d) (opposite.at d.opposite)))

/-- Whether the port at an address records a connection to `other`. -/
def records (g : Graph ν) (d : Direction) (s other : Slot) : Bool :=
  match g.opposites d s with
  | .ok opposites => opposites.contains other
  | .error _ => false

/-- Removes, at the far ends, one connection to the port at `near` for each of the listed slots of
direction `d`. The answer names the first of them that did not record its connection when its turn
came. -/
def forgetAt (g : Graph ν) (d : Direction) (near : Slot) : List Slot → Graph ν × Option Slot
  | [] => (g, none)
  | far :: rest =>
    let recorded := g.records d far near
    let (g, failed) := (g.adjustPort d far (·.unlink near)).forgetAt d near rest
    (g, if recorded then failed else some far)

/-- Removes all connections of a port. The answer is their number. It is an error if one was not
recorded at its far end; the port is disconnected all the same. -/
def disconnectAll (g : Graph ν) (d : Direction) (s : Slot) :
    Journaled (Graph ν × Except ConnectError Nat) :=
  match g.opposites d s with
  | .error e => pure (g, .error e)
  | .ok opposites =>
    match (g.adjustPort d s Port.clear).forgetAt d.opposite s opposites with
    | (g, none) => pure (g, .ok opposites.length)
    | (g, some far) => do
      Journaled.report (.disconnectMismatch (s.at d) (far.at d.opposite))
      return (g, .error (.inconsistentConnection (s.at d) (far.at d.opposite)))

/-- Removes one connection; a failure is reported and otherwise ignored. -/
def sever (g : Graph ν) (d : Direction) (port opposite : Slot) : Journaled (Graph ν) := do
  let (g, answer) ← g.disconnect d port opposite
  match answer with
  | .ok _ => return g
  | .error e => do
    Journaled.report (.severFailed e)
    return g

/-- Removes the connections of a vertex to all vertices that are not to be kept: first those of its
inputs, then those of its outputs, as they are recorded before any of them is removed. -/
def severWhere (g : Graph ν) (id : NodeId) (keep : NodeId → Bool) : Journaled (Graph ν) :=
  match g.find? id with
  | none => pure g
  | some v => do
    let doomed (d : Direction) := (Vertex.contacts d id v).filter fun (_, far) => !keep far.node
    let g ← (doomed .incoming).foldlM (fun g (own, far) => g.sever .incoming own far) g
    (doomed .outgoing).foldlM (fun g (own, far) => g.sever .outgoing own far) g

end PortGraph.Graph
