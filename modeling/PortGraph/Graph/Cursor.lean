import PortGraph.Graph.Removal

/-!
# Walking over vertices from both ends

A cursor yields the items of a sequence from the front and from the back until none is left. The
items may be the vertices of a graph with their identifiers, the identifiers alone, or the orphans a
graph is taken apart into.
-/

namespace PortGraph

/-- What is left of a sequence that is consumed from both ends. -/
structure Cursor (α : Type) where
  remaining : List α

namespace Cursor

variable {α : Type}

/-- The number of items left. -/
def size (c : Cursor α) : Nat := c.remaining.length

/-- The first item left, and the cursor after it. -/
def next (c : Cursor α) : Option α × Cursor α :=
  (c.remaining.head?, ⟨c.remaining.tail⟩)

/-- The last item left, and the cursor before it. -/
def nextBack (c : Cursor α) : Option α × Cursor α :=
  (c.remaining.getLast?, ⟨c.remaining.dropLast⟩)

end Cursor

namespace Graph

variable {φ : Flavour} {ν : Type}

/-- A cursor over the vertices with their identifiers. -/
def cursor (g : Graph ν) : Cursor (NodeId × ν) := ⟨g.vertices.entries⟩

/-- A cursor over the identifiers. -/
def idCursor (g : Graph ν) : Cursor NodeId := ⟨g.ids⟩

end Graph

end PortGraph
