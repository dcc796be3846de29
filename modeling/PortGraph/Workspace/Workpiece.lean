import PortGraph.Node
import PortGraph.Plan

/-!
# Workpieces

The vertex types a workspace can handle: it must know how to make a vertex from a blueprint, how to
label and show it, and whether vertices can be compared.
-/

namespace PortGraph

/-- From what a vertex is made. -/
structure Blueprint where
  name : String
  inputs : Nat
  outputs : Nat
  kind : String
  /-- The word for what the vertex does when it joins a graph. -/
  joining : String
  /-- The word for what the vertex does when it leaves a graph. -/
  leaving : String
deriving DecidableEq

/-- What a vertex is, as an item of a plan. -/
structure Category where
  kind : String
  alternate : Bool
deriving DecidableEq

/-- The vertices of a workspace. -/
class Workpiece (φ : outParam Flavour) (ν : Type) extends Vertex φ ν where
  make : Blueprint → ν
  label : ν → String
  /-- The vertex with another label, if labels can be changed. -/
  relabel? : String → ν → Option ν
  /-- The weight that is left of a destroyed vertex, if it has one. -/
  weight? : ν → Option String
  /-- Equality of vertices, if they can be compared. -/
  same? : Option (ν → ν → Bool)
  text : ν → String
  inspect : ν → String
  /-- What the vertex is in a plan, if it is an item of one. -/
  category? : ν → Option Category
  /-- The exchange steps of a graph, if it is an execution plan. -/
  exchanges? : Graph ν → Option (List NodeId)

variable {φ : Flavour}

instance : Workpiece φ (Node φ String) where
  make b := Node.new b.name b.inputs b.outputs
  label v := v.weight
  relabel? label v := some { v with weight := label }
  weight? v := some v.weight
  same? := some (· == ·)
  text := Node.text
  inspect := Node.inspect
  category? _ := none
  exchanges? _ := none

/-- An operator made from a blueprint. -/
def Operator.ofBlueprint (b : Blueprint) : Operator φ where
  name := b.name
  kind := .ofWord b.kind
  joining := .ofWord b.joining
  leaving := .ofWord b.leaving
  inputs := Port.row b.inputs
  outputs := Port.row b.outputs

instance : Workpiece φ (Operator φ) where
  make := Operator.ofBlueprint
  label o := o.name
  relabel? label o := some { o with name := label }
  weight? _ := none
  same? := some (· == ·)
  text := Operator.text
  inspect := Operator.inspect
  category? _ := none
  exchanges? _ := none

/-- Scans are alternates. -/
def Expression.ofBlueprint (b : Blueprint) : Expression :=
  let operator := Operator.ofBlueprint b
  ⟨operator, operator.kind = .scan⟩

/-- Exchanges are alternates. -/
def ExecutionStep.ofBlueprint (b : Blueprint) : ExecutionStep :=
  let operator := Operator.ofBlueprint b
  ⟨operator, operator.kind = .exchange⟩

instance : Workpiece .single Expression where
  make := Expression.ofBlueprint
  label e := e.operator.name
  relabel? _ _ := none
  weight? _ := none
  same? := none
  text := Expression.text
  inspect := PlanItem.inspect
  category? e := some ⟨e.operator.kind.text, e.alternate⟩
  exchanges? _ := none

instance : Workpiece .multi ExecutionStep where
  make := ExecutionStep.ofBlueprint
  label s := s.operator.name
  relabel? _ _ := none
  weight? _ := none
  same? := none
  text := ExecutionStep.text
  inspect := PlanItem.inspect
  category? s := some ⟨s.kind.text, s.alternate⟩
  exchanges? plan := some (ExecutionPlan.exchanges plan)

end PortGraph
