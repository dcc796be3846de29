import PortGraph.Graph.Connection

/-!
# Copying graphs

A copied vertex starts out as an orphan without connections. The connections of the source are made
again among the copies by `replicate`, which walks the inputs of the source and connects their
counterparts, one by one, until a connection fails. A clone keeps the identifiers; `copyInto` adds
copies under new identifiers to another graph.
-/

namespace PortGraph.Graph

variable {φ : Flavour} {ν : Type} [Vertex φ ν]

/-! ### Repeating connections -/

/-- The link between the new names of two vertices, if both have one. -/
def renamedLink? (names : Renaming) (l : Link) : Option Link :=
  match names.get? l.output.node, names.get? l.input.node with
  | some output, some input => some ⟨⟨output, l.output.offset⟩, ⟨input, l.input.offset⟩⟩
  | _, _ => none

/-- The links recorded by the inputs of the graph, by vertex, port and place. -/
def inboundLinks (g : Graph ν) : List Link :=
  g.vertices.entries.flatMap fun (id, v) => Vertex.links .incoming id v

/-- Makes the listed connections, input named first, until one fails. -/
def connectAll (g : Graph ν) : List Link → Journaled (Graph ν × Except ConnectError Unit)
  | [] => pure (g, .ok ())
  | l :: rest => do
    let (g, answer) ← g.connect .incoming l.input l.output
    match answer with
    | .ok _ => g.connectAll rest
    | .error e => return (g, .error e)

/-- Connects the vertices of `dest` as those they stand for are connected in `source`. Connections
of a vertex without a counterpart are skipped. -/
def replicate (source dest : Graph ν) (names : Renaming) :
    Journaled (Graph ν × Except ConnectError Unit) :=
  dest.connectAll (source.inboundLinks.filterMap (renamedLink? names))

/-! ### Copies -/

/-- A copy of a vertex without connections, told that it joined graph `id` as vertex `k`. -/
def joinedCopy (id : GraphId) (k : NodeId) (v : ν) : Journaled ν :=
  Vertex.onJoin (some ⟨id, k⟩) (Vertex.clearLinks (Vertex.copy v))

/-- Copies of the vertices under the same identifiers, told that they joined graph `id`. -/
def copyVertices (g : Graph ν) (id : GraphId) : Journaled (IdMap ν) where
  val := g.vertices.mapValues fun k v => (joinedCopy id k v).val
  journal := g.vertices.entries.flatMap fun (k, v) => (joinedCopy id k v).journal

/-- A copy of the graph with the given identifier: the same vertex identifiers, the same counter and
the same connections. -/
def clone (g : Graph ν) (id : GraphId) : Journaled (Graph ν) := do
  let vertices ← g.copyVertices id
  let (copy, answer) ← g.replicate ⟨id, vertices, g.next⟩ (g.vertices.mapValues fun k _ => k)
  match answer with
  | .ok () => return copy
  | .error e => do
    Journaled.report (.cloneFailed e)
    return copy

/-- Inserts copies of the listed vertices one after the other, until one is refused, and extends the
renaming by the identifiers they receive. -/
def insertCopies (g : Graph ν) (names : Renaming) :
    List (NodeId × ν) → Journaled (Graph ν × Except GraphError Renaming)
  | [] => pure (g, .ok names)
  | (id, v) :: rest => do
    let (g, answer) ← g.insertCopy v
    match answer with
    | .ok copy => g.insertCopies (names.insert id copy) rest
    | .error e => return (g, .error e)

/-- Inserts a copy of every vertex of `source` into `dest`, and keeps the connections among them.
The answer tells the identifiers of the copies. -/
def copyInto (source dest : Graph ν) : Journaled (Graph ν × Except GraphError Renaming) := do
  let (dest, answer) ← dest.insertCopies .empty source.vertices.entries
  match answer with
  | .error e => return (dest, .error e)
  | .ok names =>
    let (dest, answer) ← source.replicate dest names
    match answer with
    | .error e => return (dest, .error (.connect e))
    | .ok () => do
      Journaled.report (.copied source.id dest.id names.size)
      return (dest, .ok names)

end PortGraph.Graph
