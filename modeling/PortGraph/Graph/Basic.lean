import PortGraph.IdMap
import PortGraph.Vertex

/-!
# Graphs as containers

A graph owns its vertices. It hands each of them an identifier from a counter that is never turned
back, and tells the vertex that it joined. Insertion comes in two steps: `adopt` stores a vertex
with the connections it records, `insert` clears these first. Connections, removal, revision,
copying and transfer have modules of their own.
-/

namespace PortGraph

/-- A collection of vertices. -/
structure Graph (ν : Type) where
  /-- The identifier that the vertices report as their owner. -/
  id : GraphId
  vertices : IdMap ν
  /-- The identifier for the next vertex. -/
  next : NodeId
deriving DecidableEq

namespace Graph

variable {φ : Flavour} {ν : Type}

/-! ### Looking at vertices -/

/-- The graph without vertices. -/
def empty (id : GraphId) : Graph ν := ⟨id, .empty, .first⟩

/-- The number of vertices. -/
def size (g : Graph ν) : Nat := g.vertices.size

/-- Whether there are no vertices. -/
def isEmpty (g : Graph ν) : Bool := g.size == 0

/-- The identifiers of the vertices, in ascending order. -/
def ids (g : Graph ν) : List NodeId := g.vertices.keys

/-- Whether an identifier has a vertex. -/
def contains (g : Graph ν) (id : NodeId) : Bool := g.vertices.contains id

/-- The vertex with an identifier. -/
def find? (g : Graph ν) (id : NodeId) : Option ν := g.vertices.get? id

/-- The vertex with an identifier, or the error that there is none. -/
def get (g : Graph ν) (id : NodeId) : Except GraphError ν :=
  match g.find? id with
  | some v => .ok v
  | none => .error (.notFound id)

/-- The vertex with an identifier that is taken to be present. -/
def index (g : Graph ν) (id : NodeId) : Except IndexFault ν :=
  match g.find? id with
  | some v => .ok v
  | none => .error .invalidId

/-- Whether two graphs hold the same vertices under the same identifiers. -/
def sameWith (same : ν → ν → Bool) (g h : Graph ν) : Bool :=
  g.vertices.entries.isEqv h.vertices.entries fun a b => a.1 == b.1 && same a.2 b.2

/-- Graphs are equal when they hold equal vertices under the same identifiers. -/
instance [BEq ν] : BEq (Graph ν) := ⟨sameWith (· == ·)⟩

/-! ### Storing vertices -/

variable [Vertex φ ν]

/-- Changes the vertex with an identifier, if there is one. -/
def adjust (g : Graph ν) (id : NodeId) (f : ν → ν) : Graph ν :=
  { g with vertices := g.vertices.adjust id f }

/-- Stores a vertex under the next identifier, with the connections it records. The caller has to
bring these in line with the rest of the graph. The identifier is used up even if the vertex is
refused because it was in use. -/
def adopt (g : Graph ν) (v : ν) : Journaled (Graph ν × Except GraphError NodeId) :=
  let id := g.next
  let g := { g with next := id.next }
  if g.contains id then pure (g, .error (.conflictingId id))
  else do
    let v ← Vertex.onJoin (some ⟨g.id, id⟩) v
    Journaled.report (.inserted g.id id)
    return ({ g with vertices := g.vertices.insert id v }, .ok id)

/-- Inserts a vertex under the next identifier. The connections it records are cleared:
connections are only made within a graph. -/
def insert (g : Graph ν) (v : ν) : Journaled (Graph ν × Except GraphError NodeId) :=
  g.adopt (Vertex.clearLinks v)

/-- Inserts a copy of a vertex. -/
def insertCopy (g : Graph ν) (v : ν) : Journaled (Graph ν × Except GraphError NodeId) :=
  g.insert (Vertex.copy v)

end Graph

end PortGraph
