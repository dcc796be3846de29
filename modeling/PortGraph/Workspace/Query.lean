import PortGraph.Graph.Search
import PortGraph.Graph.Text
import PortGraph.Workspace.Reply

/-!
# Questions about one graph

A query is answered from a graph and leaves it as it is.
-/

namespace PortGraph

/-- A question about a graph. -/
inductive Query where
  | size
  | contains (id : NodeId)
  | find (id : NodeId)
  | get (id : NodeId)
  /-- The vertex with an identifier that is taken to be present. -/
  | index (id : NodeId)
  | view (id : NodeId)
  | opposites (d : Direction) (port : Slot)
  /-- What there is to know about a port, and how often it is connected to `other`. -/
  | port (d : Direction) (port other : Slot)
  | neighbours (d : Direction) (id : NodeId)
  | isConnected (d : Direction) (id : NodeId)
  | top
  | bottom
  | upstream (id : NodeId)
  | downstream (id : NodeId)
  /-- All vertices in depth-first order; input ports are followed when sorting from upstream. -/
  | sort (d : Direction)
  /-- All vertices with their labels, in depth-first order. -/
  | visit (d : Direction)
  | exchanges
  | walk (moves : List Move)
  | walkIds (moves : List Move)
  | text
  | inspect
  | snapshot
deriving DecidableEq

namespace Query

variable {φ : Flavour} {ν : Type} [Workpiece φ ν]

/-- The answer of a graph. -/
def answer (g : Graph ν) : Query → Journaled Reply
  | size => pure (.size g.size g.isEmpty g.id)
  | contains id => pure (.flag (g.contains id))
  | find id => pure (.ofOption (fun v => .vertex (.of v)) (g.find? id))
  | get id => pure (.ofGraph (fun v => .vertex (.of v)) (g.get id))
  | index id => pure (.ofIndex (fun v => .vertex (.of v)) (g.index id))
  | view id => pure (.ofGraph (fun v => .vertexView (.of v)) (g.get id))
  | opposites d s => pure (.ofConnect .slots (g.opposites d s))
  | port d s other =>
    pure (.ofOption (fun p => .portView (p.view d s.offset other)) (g.port d s).toOption)
  | neighbours d id => pure (.ids (g.neighbours d id))
  | isConnected d id => pure (.flag (g.isConnected d id))
  | top => pure (.ids g.top)
  | bottom => pure (.ids g.bottom)
  | upstream id => pure (.ids (g.upstream id))
  | downstream id => pure (.ids (g.downstream id))
  | sort d => do return .ids (← g.sort d)
  | visit d => do
    return .ofIndex .labelled
      (← g.visit d (fun seen id v => seen ++ [(id, Workpiece.label v)]) [])
  | exchanges => pure (.ofOption .ids (Workpiece.exchanges? g))
  | walk moves =>
    pure (.vertexWalk ((Walk.along true g.cursor moves).map fun (id, v) => (id, Workpiece.label v)))
  | walkIds moves => pure (.idWalk (Walk.along true g.idCursor moves))
  | text => pure (.text (g.textWith Workpiece.text))
  | inspect => pure (.text (g.inspectWith Workpiece.inspect))
  | snapshot => pure (.graph (.of g))

end Query

end PortGraph
