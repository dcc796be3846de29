import PortGraph.Vertex.Lawful

/-!
# Operators

Vertices with a name and a kind that give notice when they join or leave a graph, and may then
change their own ports. What they do to their ports is a hook: one for joining, one for leaving.
-/

namespace PortGraph

/-! ### Kinds and hooks -/

/-- What an operator does with its data. -/
inductive Kind where
  | scan
  | join
  | emit
  | filter
  | project
  | values
  | write
  | process
  | exchange
  /-- Any other operator. -/
  | other
deriving DecidableEq

namespace Kind

/-- The word for a kind. -/
def text : Kind → String
  | scan => "scan"
  | join => "join"
  | emit => "emit"
  | filter => "filter"
  | project => "project"
  | values => "values"
  | write => "write"
  | process => "process"
  | exchange => "exchange"
  | other => "op"

/-- The kind with the given word; an unknown word is some other kind. -/
def ofWord (word : String) : Kind :=
  let known := [scan, join, emit, filter, project, values, write, process, exchange]
  (known.find? fun kind => kind.text == word).getD other

end Kind

/-- What an operator does to its ports when it joins or leaves a graph. -/
inductive Hook where
  /-- Replaces all inputs by new ones. -/
  | renewInputs
  /-- Replaces all outputs by new ones. -/
  | renewOutputs
  /-- Replaces all ports by new ones. -/
  | renewBoth
  /-- Removes the last input and the last output. -/
  | shrink
  /-- Adds an input and an output. -/
  | grow
  /-- Does nothing. The word that was given for it is kept: it tells operators apart. -/
  | idle (word : String)
deriving DecidableEq

/-- The hook with the given word. -/
def Hook.ofWord (word : String) : Hook :=
  if word = "in" then renewInputs
  else if word = "out" then renewOutputs
  else if word = "both" then renewBoth
  else if word = "shrink" then shrink
  else if word = "grow" then grow
  else idle word

/-! ### Operators -/

/-- A vertex that takes part in what happens to it. -/
structure Operator (φ : Flavour) where
  name : String
  kind : Kind
  joining : Hook
  leaving : Hook
  inputs : List (Port φ)
  outputs : List (Port φ)
  binding : Binding := {}
deriving DecidableEq

namespace Operator

variable {φ : Flavour}

/-- An unconnected port is added at the end of a row of ports. -/
def extend (ports : List (Port φ)) : List (Port φ) := ports ++ [Port.new ports.length]

/-- What a hook makes of an operator. -/
def apply : Hook → Operator φ → Operator φ
  | .renewInputs, o => { o with inputs := Port.row o.inputs.length }
  | .renewOutputs, o => { o with outputs := Port.row o.outputs.length }
  | .renewBoth, o =>
    { o with inputs := Port.row o.inputs.length, outputs := Port.row o.outputs.length }
  | .shrink, o => { o with inputs := o.inputs.dropLast, outputs := o.outputs.dropLast }
  | .grow, o => { o with inputs := extend o.inputs, outputs := extend o.outputs }
  | .idle _, o => o

/-- The notice of an operator about its membership. -/
def notice (o : Operator φ) : Option Membership → Notice
  | some m => .joined o.name m
  | none => .orphaned o.name

/-- The operator records its membership, gives notice, and applies its hook. -/
def onJoin (m : Option Membership) (o : Operator φ) : Journaled (Operator φ) := do
  Journaled.announce (o.notice m)
  return apply (if m.isSome then o.joining else o.leaving) { o with binding := ⟨m⟩ }

/-- A copy is an orphan with unconnected ports of the same offsets. -/
def copy (o : Operator φ) : Operator φ :=
  { o with
    inputs := o.inputs.map Port.copy
    outputs := o.outputs.map Port.copy
    binding := o.binding.copy }

/-- The ports of one direction. -/
def ports : Direction → Operator φ → List (Port φ)
  | .incoming, o => o.inputs
  | .outgoing, o => o.outputs

/-- Overwrites the ports of one direction. -/
def setPorts : Direction → List (Port φ) → Operator φ → Operator φ
  | .incoming, ports, o => { o with inputs := ports }
  | .outgoing, ports, o => { o with outputs := ports }

/-- An operator says that it leaves before it is orphaned. -/
instance : Vertex φ (Operator φ) where
  ports := ports
  setPorts := setPorts
  membership o := o.binding.membership
  onJoin := onJoin
  onLeave o := do
    Journaled.announce (.left o.name)
    onJoin none o
  copy := copy

/-! ### Laws -/

theorem binding_apply (h : Hook) (o : Operator φ) :
    (apply h o).binding = o.binding := by
  cases h <;> rfl

/-- What stands at a position of a row after its last port is removed stood there before. -/
theorem getElem?_of_dropLast {ps : List (Port φ)} {i : Nat} {p : Port φ}
    (h : ps.dropLast[i]? = some p) : ps[i]? = some p := by
  rw [List.getElem?_dropLast] at h
  split at h
  · exact h
  · cases h

/-- What stands at a position of an extended row is unconnected or stood there before. -/
theorem getElem?_of_extend {ps : List (Port φ)} {i : Nat} {p : Port φ}
    (h : (extend ps)[i]? = some p) : p.opposites = [] ∨ ps[i]? = some p := by
  rw [extend, List.getElem?_append] at h
  split at h
  · exact .inr h
  · have := List.mem_of_getElem? h
    rw [List.mem_singleton] at this
    exact .inl (this ▸ rfl)

/-- A hook sheds connections. -/
theorem sheds_apply (h : Hook) (o : Operator φ) (d : Direction) (i : Nat) (p : Port φ)
    (hp : (ports d (apply h o))[i]? = some p) : p.opposites = [] ∨ (ports d o)[i]? = some p := by
  have hrow (count : Nat) (hp : (Port.row count)[i]? = some p) : p.opposites = [] :=
    Port.opposites_of_mem_row (List.mem_of_getElem? hp)
  cases h with
  | idle => exact .inr (by cases d <;> exact hp)
  | renewInputs =>
    cases d with
    | incoming => exact .inl (hrow _ hp)
    | outgoing => exact .inr hp
  | renewOutputs =>
    cases d with
    | incoming => exact .inr hp
    | outgoing => exact .inl (hrow _ hp)
  | renewBoth => exact .inl (by cases d <;> exact hrow _ hp)
  | shrink => exact .inr (by cases d <;> exact getElem?_of_dropLast hp)
  | grow => cases d <;> exact getElem?_of_extend hp

instance : LawfulVertex φ (Operator φ) where
  ports_setPorts d _ _ _ := by cases d <;> rfl
  ports_opposite_setPorts d _ _ := by cases d <;> rfl
  membership_setPorts d _ _ := by cases d <;> rfl
  membership_onJoin _ _ := congrArg Binding.membership (binding_apply _ _)
  membership_onLeave _ := congrArg Binding.membership (binding_apply _ _)
  sheds_onJoin _ o d i p hp := by
    have := sheds_apply _ _ d i p hp
    cases d <;> exact this
  sheds_onLeave o d i p hp := by
    have := sheds_apply _ _ d i p hp
    cases d <;> exact this

/-! ### Equality and texts -/

/-- Operators are equal when they agree in all but the graph that they belong to. -/
instance : BEq (Operator φ) :=
  ⟨fun a b => a.name == b.name && a.kind == b.kind && a.joining == b.joining &&
    a.leaving == b.leaving && a.inputs == b.inputs && a.outputs == b.outputs &&
    a.binding == b.binding⟩

/-- The text of an operator. -/
def text (o : Operator φ) : String := s!"op {o.name}"

/-- The structural text of an operator. -/
def inspect (o : Operator φ) : String := Text.tagged "Op" [Text.quoted o.name]

end Operator

end PortGraph
