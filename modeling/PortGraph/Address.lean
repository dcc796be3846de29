import PortGraph.Identity

/-!
# Addresses of ports

A vertex has input ports and output ports, each list counted from zero. A `Slot` names a port among
those of one direction; where the direction is not known from the context an `Address` adds it. A
`Link` is a connection, from an output port to an input port.
-/

namespace PortGraph

/-! ### Directions -/

/-- The direction of a port, seen from the vertex that has it. -/
inductive Direction where
  /-- Input ports, connected to upstream vertices. -/
  | incoming
  /-- Output ports, connected to downstream vertices. -/
  | outgoing
deriving DecidableEq

namespace Direction

/-- The direction of the ports that ports of this direction connect to. -/
def opposite : Direction → Direction
  | incoming => outgoing
  | outgoing => incoming

@[simp] theorem opposite_opposite (d : Direction) : d.opposite.opposite = d := by
  cases d <;> rfl

/-- The place of a direction in the order of addresses: inputs come first. -/
def rank : Direction → Nat
  | incoming => 0
  | outgoing => 1

/-- The short text of a direction. -/
def text : Direction → String
  | incoming => "input"
  | outgoing => "output"

/-- The structural text of a direction. -/
def inspect : Direction → String
  | incoming => "Incoming"
  | outgoing => "Outgoing"

end Direction

/-! ### Slots and addresses -/

/-- The place of a port among the ports of one direction: its vertex, and its position there. -/
structure Slot where
  node : NodeId
  offset : Nat
deriving DecidableEq

/-- The place of a port among all ports. -/
structure Address where
  node : NodeId
  direction : Direction
  offset : Nat
deriving DecidableEq

/-- The address of a slot among the ports of direction `d`. -/
def Slot.at (s : Slot) (d : Direction) : Address := ⟨s.node, d, s.offset⟩

/-- An address tells the slot and the direction. -/
theorem Slot.at_inj {s t : Slot} {d e : Direction} : s.at d = t.at e ↔ s = t ∧ d = e := by
  obtain ⟨k, i⟩ := s
  obtain ⟨k', i'⟩ := t
  simp only [Slot.at, Address.mk.injEq, Slot.mk.injEq]
  constructor
  · rintro ⟨rfl, rfl, rfl⟩
    exact ⟨⟨rfl, rfl⟩, rfl⟩
  · rintro ⟨⟨rfl, rfl⟩, rfl⟩
    exact ⟨rfl, rfl, rfl⟩

namespace Address

/-- The short text of an address. -/
def text (a : Address) : String :=
  a.node.text ++ "." ++ a.direction.text ++ "[" ++ toString a.offset ++ "]"

/-- The structural text of an address. -/
def inspect (a : Address) : String :=
  Text.record "PortAddress"
    [("node", a.node.inspect), ("direction", a.direction.inspect), ("offset", toString a.offset)]

/-- Addresses are ordered by vertex, then direction with inputs first, then offset. -/
def precedes (a b : Address) : Bool :=
  a.node.val < b.node.val ||
    (a.node.val == b.node.val &&
      (a.direction.rank < b.direction.rank ||
        (a.direction.rank == b.direction.rank && a.offset < b.offset)))

/-- The addresses in ascending order, repeats kept. -/
def sort (addresses : List Address) : List Address :=
  addresses.mergeSort fun a b => !b.precedes a

end Address

namespace Slot

/-- The short text of a slot of direction `d`. -/
def text (d : Direction) (s : Slot) : String := (s.at d).text

/-- The structural text of a slot of direction `d`. -/
def inspect (d : Direction) (s : Slot) : String := Text.tagged "PortRef" [s.text d]

/-- The slots of direction `d` in ascending order of their addresses, without repeats. -/
def sortDistinct (d : Direction) (slots : List Slot) : List Slot :=
  ((Address.sort (slots.map (·.at d))).map fun a => ⟨a.node, a.offset⟩).eraseDups

end Slot

/-- The address of input port `offset` of vertex `id`. -/
def NodeId.input (id : NodeId) (offset : Nat) : Address := ⟨id, .incoming, offset⟩

/-- The address of output port `offset` of vertex `id`. -/
def NodeId.output (id : NodeId) (offset : Nat) : Address := ⟨id, .outgoing, offset⟩

/-! ### Links -/

/-- A connection, from an output port to an input port. -/
structure Link where
  output : Slot
  input : Slot
deriving DecidableEq

namespace Link

/-- The link between a port of direction `d` and an opposite port. -/
def between : Direction → Slot → Slot → Link
  | .incoming, port, opposite => ⟨opposite, port⟩
  | .outgoing, port, opposite => ⟨port, opposite⟩

/-- Both ends of the link are ports of the same vertex `id`. -/
def isLoopAt (id : NodeId) (l : Link) : Bool :=
  l.output.node = id && l.input.node = id

end Link

end PortGraph
