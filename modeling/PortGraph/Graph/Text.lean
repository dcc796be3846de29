import PortGraph.Graph.Basic

/-!
# Texts of graphs

The text of a graph has a line for the graph, a line for each vertex, and below it a line for each
opposite of each output port. The structural text shows the fields.
-/

namespace PortGraph.Graph

variable {φ : Flavour} {ν : Type}

/-- The structural text of a graph whose vertices have the structural text `inspect`. -/
def inspectWith (inspectVertex : ν → String) (g : Graph ν) : String :=
  Text.record "Graph" [("id", g.id.inspect),
    ("nodes", Text.mapping (g.vertices.entries.map fun (id, v) => (id.inspect, inspectVertex v)))]

variable [Vertex φ ν]

/-- The line of a connection. -/
def linkLine (own far : Slot) : String :=
  "    " ++ own.text .outgoing ++ " -> " ++ far.text .incoming ++ "\n"

/-- The lines of a vertex with the text `label`. -/
def vertexLines (label : String) (id : NodeId) (v : ν) : String :=
  "  " ++ id.text ++ ": " ++ label ++ "\n" ++
    String.join ((Vertex.contacts .outgoing id v).map fun (own, far) => linkLine own far)

/-- The text of a graph whose vertices have the text `textOf`. -/
def textWith (textOf : ν → String) (g : Graph ν) : String :=
  s!"graph {g.id.text} ({g.size} vertices)\n" ++
    String.join (g.vertices.entries.map fun (id, v) => vertexLines (textOf v) id v)

end PortGraph.Graph
