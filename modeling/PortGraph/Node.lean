import PortGraph.Vertex.Lawful

/-!
# Weighted vertices

The plainest vertex: a weight, a number of ports in either direction, and a binding. It only records
its membership when it joins or leaves a graph.
-/

namespace PortGraph

/-- A vertex that carries a weight. -/
structure Node (φ : Flavour) (ω : Type) where
  weight : ω
  inputs : List (Port φ)
  outputs : List (Port φ)
  binding : Binding := {}
deriving DecidableEq

namespace Node

variable {φ : Flavour} {ω : Type}

/-- An orphan with the given numbers of unconnected ports. -/
def new (weight : ω) (inputs outputs : Nat) : Node φ ω where
  weight
  inputs := Port.row inputs
  outputs := Port.row outputs

instance : Vertex φ (Node φ ω) where
  ports
    | .incoming, v => v.inputs
    | .outgoing, v => v.outputs
  setPorts
    | .incoming, ports, v => { v with inputs := ports }
    | .outgoing, ports, v => { v with outputs := ports }
  membership v := v.binding.membership
  onJoin m v := pure { v with binding := ⟨m⟩ }
  copy v :=
    { v with
      inputs := v.inputs.map Port.copy
      outputs := v.outputs.map Port.copy
      binding := v.binding.copy }

instance : LawfulVertex φ (Node φ ω) where
  ports_setPorts d _ _ _ := by cases d <;> rfl
  ports_opposite_setPorts d _ _ := by cases d <;> rfl
  membership_setPorts d _ _ := by cases d <;> rfl
  membership_onJoin _ _ := rfl
  membership_onLeave _ := rfl
  sheds_onJoin _ _ d _ _ h := .inr (by cases d <;> exact h)
  sheds_onLeave _ d _ _ h := .inr (by cases d <;> exact h)

/-- Vertices are equal when their weights and ports are and they have the same identifier, whatever
the graphs. -/
instance [BEq ω] : BEq (Node φ ω) :=
  ⟨fun a b => a.weight == b.weight && a.inputs == b.inputs && a.outputs == b.outputs &&
    a.binding == b.binding⟩

/-- The text of a vertex with a textual weight. -/
def text (v : Node φ String) : String := Vertex.summary v.weight v

/-- The structural text of a vertex with a textual weight. -/
def inspect (v : Node φ String) : String :=
  Text.record "Node" [("weight", Text.quoted v.weight),
    ("inputs", Text.list (v.inputs.map (Port.inspect .incoming))),
    ("outputs", Text.list (v.outputs.map (Port.inspect .outgoing))),
    ("binding", v.binding.inspect)]

end Node

end PortGraph
