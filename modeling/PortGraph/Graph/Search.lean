import PortGraph.Graph.Connection

/-!
# Walking along connections

Upstream is against the connections, through input ports; downstream is along them, through output
ports. `sort` lists every vertex once, in depth-first post-order: without cycles each vertex comes
after all vertices next to it in the direction of the search. On a cycle the order is that of the
search, and the first vertex that the search comes back to is reported.

The search keeps its own stack (`Search`). It ends because entering a vertex takes it off the list
of vertices not entered yet, and every other step shortens the stack.
-/

namespace PortGraph

/-! ### The state of a search -/

/-- What a search has on its stack. -/
inductive Frame where
  /-- The vertex is to be entered, unless it was in the meantime. -/
  | enter (id : NodeId)
  /-- All vertices next to the vertex were entered after it; it is to be left. -/
  | exit (id : NodeId)
deriving DecidableEq

/-- The state of a depth-first search. -/
structure Search where
  /-- What is to be done next, first things first. -/
  stack : List Frame
  /-- Vertices that were not entered yet. -/
  waiting : List NodeId
  /-- Vertices that were left, in this order. -/
  order : List NodeId
  /-- The first vertex found to lie on a cycle. -/
  cycle : Option NodeId
deriving DecidableEq

namespace Search

/-- What to push for the vertices next to one just entered: those not entered yet, in order. -/
def pending (waiting next : List NodeId) : List Frame :=
  (next.filter waiting.contains).map .enter

/-- The vertices among `next` that were entered but not left yet: the search came back to them. A
vertex that is not stored counts for nothing. -/
def revisited (stored waiting order next : List NodeId) : List NodeId :=
  next.filter fun id => stored.contains id && !waiting.contains id && !order.contains id

/-- Searches until the stack is empty. `stored` are the vertices of the graph, `next` gives those
next to a vertex. When several were found on a cycle at once, the last of them is kept, because the
vertices next to a vertex are looked at from the last to the first. -/
def run (stored : List NodeId) (next : NodeId → List NodeId) (s : Search) : Search :=
  match s with
  | ⟨[], _, _, _⟩ => s
  | ⟨.exit id :: stack, waiting, order, cycle⟩ =>
    run stored next ⟨stack, waiting, order ++ [id], cycle⟩
  | ⟨.enter id :: stack, waiting, order, cycle⟩ =>
    if id ∈ waiting then
      let others := waiting.erase id
      run stored next
        ⟨pending others (next id) ++ .exit id :: stack, others, order,
          cycle <|> (revisited stored others order (next id)).getLast?⟩
    else run stored next ⟨stack, waiting, order, cycle⟩
termination_by (s.waiting.length, s.stack.length)
decreasing_by
  · exact Prod.Lex.right _ (Nat.lt_succ_self _)
  · next h =>
    have hlt : (waiting.erase id).length < waiting.length := by
      have := List.length_pos_of_mem h
      rw [List.length_erase_of_mem h]
      omega
    exact Prod.Lex.left _ _ hlt
  · exact Prod.Lex.right _ (Nat.lt_succ_self _)

end Search

namespace Graph

variable {φ : Flavour} {ν : Type} [Vertex φ ν]

/-! ### Ends -/

/-- The vertices without any connected input port. -/
def top (g : Graph ν) : List NodeId := g.ids.filter fun id => !g.isConnected .incoming id

/-- The vertices without any connected output port. -/
def bottom (g : Graph ν) : List NodeId := g.ids.filter fun id => !g.isConnected .outgoing id

/-- The distinct vertices connected to the inputs of a vertex. -/
def upstream (g : Graph ν) (id : NodeId) : List NodeId := g.neighbours .incoming id

/-- The distinct vertices connected to the outputs of a vertex. -/
def downstream (g : Graph ν) (id : NodeId) : List NodeId := g.neighbours .outgoing id

/-! ### Sorting -/

/-- The finished search of the graph in direction `d`, started from every vertex in ascending order.
-/
def search (g : Graph ν) (d : Direction) : Search :=
  Search.run g.ids (g.neighbours d) ⟨g.ids.map .enter, g.ids, [], none⟩

/-- All vertices in depth-first post-order over the connections of direction `d`. A cycle is
reported once. -/
def sort (g : Graph ν) (d : Direction) : Journaled (List NodeId) :=
  let s := g.search d
  match s.cycle with
  | none => pure s.order
  | some id => do
    Journaled.report (.cycle g.id id)
    return s.order

/-- All vertices, each after every vertex upstream of it. -/
def sortFromUpstream (g : Graph ν) : Journaled (List NodeId) := g.sort .incoming

/-- All vertices, each after every vertex downstream of it. -/
def sortFromDownstream (g : Graph ν) : Journaled (List NodeId) := g.sort .outgoing

/-- Visits all vertices in the order of `sort`, passing a state on from one to the next. -/
def visit {σ : Type} (g : Graph ν) (d : Direction) (f : σ → NodeId → ν → σ) (s : σ) :
    Journaled (Except IndexFault σ) := do
  let order ← g.sort d
  return order.foldlM (fun s id => (g.index id).map (f s id)) s

end Graph

end PortGraph
