import PortGraph.Workspace.Edit
import PortGraph.Graph.Cursor

/-!
# Replies

What a workspace answers to a command: a value of one of the shapes below, or the fault because of
which the command was refused.
-/

namespace PortGraph

/-! ### Faults -/

/-- Why a command is refused. -/
inductive Fault where
  /-- There is no graph in a slot. -/
  | noGraph
  /-- There is no such entry of the stash. -/
  | noStash
  /-- A command for two graphs names one of them twice. -/
  | sameGraph
  /-- Zero is given as the identifier of a vertex. -/
  | zeroId
  | connect (error : ConnectError)
  | graph (error : GraphError)
  | index (fault : IndexFault)
deriving DecidableEq

/-- The words of a fault. -/
def Fault.message : Fault → String
  | noGraph | noStash | sameGraph => ""
  | zeroId => "zero"
  | connect error => error.message
  | graph error => error.message
  | index fault => fault.message

/-! ### Walks -/

/-- A step of a walk with a cursor. -/
inductive Move where
  | front
  | back
  /-- Counts the items left. -/
  | count
deriving DecidableEq

/-- What a step of a walk yields. -/
inductive MoveReply (α : Type) where
  | item (a : Option α)
  | count (n : Nat)
deriving DecidableEq

/-- What a walk with a cursor yields. -/
structure Walk (α : Type) where
  /-- What each step yields, and the number of items left after it. -/
  moves : List (MoveReply α × Nat)
  /-- The items left after the last step. -/
  rest : List α
  /-- Whether neither end yields an item after that. -/
  ended : Bool

namespace Walk

variable {α β : Type}

/-- Walks with a cursor. Where the items are owned by the cursor they cannot be counted on the side;
such a count yields nothing. -/
def along (countable : Bool) (c : Cursor α) : List Move → Walk α
  | [] =>
    let drained : Cursor α := ⟨[]⟩
    ⟨[], c.remaining, drained.next.1.isNone && drained.nextBack.1.isNone⟩
  | move :: moves =>
    let (reply, c) : MoveReply α × Cursor α :=
      match move with
      | .front => (.item c.next.1, c.next.2)
      | .back => (.item c.nextBack.1, c.nextBack.2)
      | .count => (if countable then .count c.size else .item none, c)
    let w := along countable c moves
    { w with moves := (reply, c.size) :: w.moves }

/-- Replaces every item. -/
def map (f : α → β) (w : Walk α) : Walk β where
  moves := w.moves.map fun
    | (.item a, left) => (.item (a.map f), left)
    | (.count n, left) => (.count n, left)
  rest := w.rest.map f
  ended := w.ended

/-- All items, in the order in which they were yielded. -/
def yielded (w : Walk α) : List α :=
  (w.moves.filterMap fun
    | (.item a, _) => a
    | (.count _, _) => none) ++ w.rest

end Walk

/-! ### Views -/

/-- What there is to know about a port. -/
structure PortView where
  flavour : Flavour
  offset : Nat
  connected : Bool
  text : String
  inspect : String
  /-- The text of a copy. -/
  copyText : String
  equalsCopy : Bool
  /-- Whether the port equals the new port whose offset is its position. -/
  equalsNew : Bool
  opposites : List Slot
  /-- The number of connections to the slot that was asked about. -/
  count : Nat

/-- The view of a port of direction `d` at a position. -/
def Port.view {φ : Flavour} (d : Direction) (position : Nat) (other : Slot) (p : Port φ) :
    PortView where
  flavour := φ
  offset := p.offset
  connected := p.isConnected
  text := p.text d
  inspect := p.inspect d
  copyText := p.copy.text d
  equalsCopy := p = p.copy
  equalsNew := p = .new position
  opposites := p.opposites
  count := p.count other

/-- What there is to know about a vertex. -/
structure VertexView where
  text : String
  inspect : String
  category : Option Category

/-- The view of a vertex. -/
def VertexView.of {φ : Flavour} {ν : Type} [Workpiece φ ν] (v : ν) : VertexView where
  text := Workpiece.text v
  inspect := Workpiece.inspect v
  category := Workpiece.category? v

/-- How two vertices compare. Without an equality of vertices the first and the last are missing. -/
structure VertexComparison where
  equal : Option Bool
  sameMembership : Bool
  /-- Whether the first vertex equals its copy. -/
  equalsCopy : Option Bool

/-- The comparison of two vertices. -/
def VertexComparison.of {φ : Flavour} {ν : Type} [Workpiece φ ν] (v w : ν) :
    VertexComparison where
  equal := Workpiece.same?.map fun same => same v w
  sameMembership := Vertex.membership v = Vertex.membership w
  equalsCopy := Workpiece.same?.map fun same => same v (Vertex.copy v)

/-- How two bindings compare. -/
structure BindingComparison where
  first : Binding
  second : Binding
  equal : Bool
  sameMembership : Bool
  copy : Binding
  equalsCopy : Bool

/-- The comparison of two bindings. -/
def BindingComparison.of (a b : Binding) : BindingComparison where
  first := a
  second := b
  equal := a == b
  sameMembership := a.membership = b.membership
  copy := a.copy
  equalsCopy := a.copy == a

/-! ### Replies -/

/-- What a workspace answers to a command. -/
inductive Reply where
  | nothing
  | done
  | flag (b : Bool)
  | count (n : Nat)
  | text (s : String)
  | id (id : NodeId)
  | ids (ids : List NodeId)
  | slots (slots : List Slot)
  /-- Vertices with their labels. -/
  | labelled (vertices : List (NodeId × String))
  | renaming (names : Renaming)
  /-- The number of vertices, whether there are none, and the graph. -/
  | size (vertices : Nat) (empty : Bool) (graph : GraphId)
  /-- A new graph, and the slot it is in. -/
  | made (slot : Nat) (graph : GraphId)
  | vertex (snapshot : VertexSnapshot)
  | graph (snapshot : GraphSnapshot)
  | edited (replies : List EditReply)
  | editedEach (replies : List (NodeId × List EditReply))
  | portView (view : PortView)
  | vertexView (view : VertexView)
  /-- Whether two graphs are equal, and whether the first equals itself. -/
  | equality (graphs itself : Option Bool)
  | vertexComparison (comparison : VertexComparison)
  | bindingComparison (comparison : BindingComparison)
  | vertexWalk (walk : Walk (NodeId × String))
  | idWalk (walk : Walk NodeId)
  | orphanWalk (walk : Walk (NodeId × VertexSnapshot))
  | fault (fault : Fault)

namespace Reply

/-- Answers with a value, or with the fault that stands in its place. -/
def ofConnect {α : Type} (f : α → Reply) : Except ConnectError α → Reply
  | .ok a => f a
  | .error e => fault (.connect e)

/-- Answers with a value, or with the fault that stands in its place. -/
def ofGraph {α : Type} (f : α → Reply) : Except GraphError α → Reply
  | .ok a => f a
  | .error e => fault (.graph e)

/-- Answers with a value, or with the fault that stands in its place. -/
def ofIndex {α : Type} (f : α → Reply) : Except IndexFault α → Reply
  | .ok a => f a
  | .error e => fault (.index e)

/-- Answers with a value if there is one. -/
def ofOption {α : Type} (f : α → Reply) : Option α → Reply
  | some a => f a
  | none => nothing

end Reply

end PortGraph
