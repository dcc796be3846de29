import PortGraph.Graph.Removal
import PortGraph.Workspace.Reply

/-!
# Changes to one graph

A change concerns one graph and nothing else in the workspace.
-/

namespace PortGraph

/-- A change to a graph. -/
inductive Change where
  | insert (blueprint : Blueprint)
  /-- Inserts a number of vertices, each connected to the one before. -/
  | chain (blueprint : Blueprint) (count : Nat)
  | connect (d : Direction) (port opposite : Slot)
  | link (link : Link)
  | disconnect (d : Direction) (port opposite : Slot)
  | disconnectAll (d : Direction) (port : Slot)
  | erase (id : NodeId)
  | clear
  /-- Keeps the vertices with a listed label or number. -/
  | retain (labels : List String) (numbers : List Nat)
deriving DecidableEq

namespace Change

variable {φ : Flavour} {ν : Type} [Workpiece φ ν]

/-- Inserts the vertices of a chain, from number `i` on, after the vertex `last`; `made` are those
inserted so far. The first failure ends the chain. -/
def extendChain (b : Blueprint) (g : Graph ν) (made : List NodeId) (i : Nat) :
    Nat → Journaled (Graph ν × Reply)
  | 0 => pure (g, .ids made)
  | count + 1 => do
    let v : ν := Workpiece.make { b with name := b.name ++ toString i }
    let (g, answer) ← g.insert v
    match answer with
    | .error e => return (g, .fault (.graph e))
    | .ok id =>
      match made.getLast? with
      | none => extendChain b g [id] (i + 1) count
      | some last => do
        let (g, answer) ← g.link ⟨⟨last, 0⟩, ⟨id, 0⟩⟩
        match answer with
        | .error e => return (g, .fault (.connect e))
        | .ok _ => extendChain b g (made ++ [id]) (i + 1) count

/-- Carries out a change. -/
def apply (g : Graph ν) : Change → Journaled (Graph ν × Reply)
  | insert b => do
    let (g, answer) ← g.insert (Workpiece.make b)
    return (g, .ofGraph .id answer)
  | chain b count => extendChain b g [] 0 count
  | connect d port opposite => do
    let (g, answer) ← g.connect d port opposite
    return (g, .ofConnect .flag answer)
  | link l => do
    let (g, answer) ← g.link l
    return (g, .ofConnect .flag answer)
  | disconnect d port opposite => do
    let (g, answer) ← g.disconnect d port opposite
    return (g, .ofConnect .flag answer)
  | disconnectAll d port => do
    let (g, answer) ← g.disconnectAll d port
    return (g, .ofConnect .count answer)
  | erase id => do
    let (g, existed) ← g.erase id
    return (g, .flag existed)
  | clear => do
    return (← g.clear, .nothing)
  | retain labels numbers => do
    let keep (id : NodeId) (v : ν) : StateM (List NodeId) Bool := do
      modify (· ++ [id])
      return labels.contains (Workpiece.label v) || numbers.contains id.val
    let (g, seen) ← g.retain keep []
    return (g, .ids seen)

end Change

end PortGraph
