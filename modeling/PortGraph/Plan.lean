import PortGraph.Graph.Basic
import PortGraph.Operator

/-!
# Plans

Two kinds of graphs are made of operators. In a relational plan every port takes at most one
connection: an operator consumes each of its inputs from exactly one other. In a plan of execution
steps the ports are multiple, and a step either processes data or exchanges it between processing
steps. An item of a plan is shown by its kind and the numbers of its ports.
-/

namespace PortGraph

/-- An operator in a plan. An alternate behaves like its operator, but leaves a graph without giving
notice beforehand. -/
structure PlanItem (φ : Flavour) where
  operator : Operator φ
  alternate : Bool

namespace PlanItem

variable {φ : Flavour}

/-- Applies a journaled change to the operator of an item. -/
def withOperator (f : Operator φ → Journaled (Operator φ)) (i : PlanItem φ) :
    Journaled (PlanItem φ) := do
  return { i with operator := ← f i.operator }

instance : Vertex φ (PlanItem φ) where
  ports d i := Vertex.ports d i.operator
  setPorts d ports i := { i with operator := Vertex.setPorts d ports i.operator }
  membership i := Vertex.membership i.operator
  onJoin m := withOperator (Vertex.onJoin m)
  onLeave i := withOperator (if i.alternate then Vertex.onJoin none else Vertex.onLeave) i
  copy i := { i with operator := Vertex.copy i.operator }

instance : LawfulVertex φ (PlanItem φ) where
  ports_setPorts d ps i h := LawfulPorts.ports_setPorts d ps i.operator h
  ports_opposite_setPorts d ps i := LawfulPorts.ports_opposite_setPorts d ps i.operator
  membership_setPorts d ps i := LawfulPorts.membership_setPorts d ps i.operator
  membership_onJoin m i := JoiningVertex.membership_onJoin m i.operator
  membership_onLeave i := by
    obtain ⟨o, alternate⟩ := i
    cases alternate with
    | true => exact JoiningVertex.membership_onJoin none o
    | false => exact RecordingVertex.membership_onLeave o
  sheds_onJoin m i := SheddingVertex.sheds_onJoin m i.operator
  sheds_onLeave i := by
    obtain ⟨o, alternate⟩ := i
    cases alternate with
    | true => exact SheddingVertex.sheds_onJoin none o
    | false => exact SheddingVertex.sheds_onLeave o

/-- The structural text of an item. -/
def inspect (i : PlanItem φ) : String :=
  if i.alternate then Text.tagged "Alt" [i.operator.inspect] else i.operator.inspect

end PlanItem

/-! ### Relational plans -/

/-- An operator of a relational plan. -/
abbrev Expression := PlanItem .single

/-- A relational plan. -/
abbrev RelationalPlan := Graph Expression

/-- The text of an expression. -/
def Expression.text (e : Expression) : String := Vertex.summary e.operator.kind.text e

/-! ### Plans of execution steps -/

/-- What an execution step does with its data. -/
inductive StepKind where
  /-- Runs operators on the data it receives. -/
  | process
  /-- Moves data between processing steps. -/
  | exchange
deriving DecidableEq

namespace StepKind

/-- The word for a kind of steps. -/
def text : StepKind → String
  | process => "process"
  | exchange => "exchange"

/-- The structural text of a kind of steps. -/
def inspect : StepKind → String
  | process => "Process"
  | exchange => "Exchange"

end StepKind

/-- A step of an execution plan. -/
abbrev ExecutionStep := PlanItem .multi

/-- An execution plan. -/
abbrev ExecutionPlan := Graph ExecutionStep

namespace ExecutionStep

/-- A step is an exchange if its operator is one; every other operator is processing. -/
def kind (s : ExecutionStep) : StepKind :=
  if s.operator.kind = .exchange then .exchange else .process

/-- The text of a step. -/
def text (s : ExecutionStep) : String := Vertex.summary s.kind.text s

end ExecutionStep

/-- The exchange steps of a plan, in ascending order. -/
def ExecutionPlan.exchanges (plan : ExecutionPlan) : List NodeId :=
  (plan.vertices.filter fun _ s => s.kind = .exchange).keys

end PortGraph
