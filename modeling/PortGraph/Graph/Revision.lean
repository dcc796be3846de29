import PortGraph.Graph.Connection

/-!
# Revising vertices in place

`modify` hands a stored vertex to a function that may do with it what it likes: change its ports,
replace it, tell it that it left. Afterwards the graph repairs what it answers for. The vertex gets
its membership back. A connection that it no longer records is removed at the far end, and a
connection that nobody made is dropped.

Which connections stay is settled by counting (`Settlement`): every link from before the revision is
set against one that the vertex still records, and a loop against one at either end.
-/

namespace PortGraph

/-! ### Settling links -/

/-- How far the links of a vertex from before a revision have been set against those it records now.
-/
structure Settlement where
  /-- Links recorded by the inputs now that are not accounted for. -/
  inbound : List Link
  /-- Links recorded by the outputs now that are not accounted for. -/
  outbound : List Link
  /-- Links that the vertex still has. -/
  kept : List Link := []
  /-- Links that went missing. -/
  lost : List Link := []
deriving DecidableEq

namespace Settlement

/-- Keeps a link or gives it up. -/
def decide (s : Settlement) (l : Link) (stays : Bool) : Settlement :=
  if stays then { s with kept := s.kept ++ [l] } else { s with lost := s.lost ++ [l] }

/-- Accounts for a link that an input of vertex `id` had. A loop has to be recorded at both ends. -/
def settleInbound (id : NodeId) (s : Settlement) (l : Link) : Settlement :=
  if s.inbound.contains l then
    let s := { s with inbound := s.inbound.erase l }
    if l.output.node = id then
      { s with outbound := s.outbound.erase l }.decide l (s.outbound.contains l)
    else s.decide l true
  else s.decide l false

/-- Accounts for a link that an output of vertex `id` had; loops are accounted for at the inputs. -/
def settleOutbound (id : NodeId) (s : Settlement) (l : Link) : Settlement :=
  if l.input.node = id then s
  else { s with outbound := s.outbound.erase l }.decide l (s.outbound.contains l)

/-- Whether the vertex records links that it did not have. -/
def hasUnmanaged (id : NodeId) (s : Settlement) : Bool :=
  !s.inbound.isEmpty || s.outbound.any fun l => l.input.node ≠ id

end Settlement

/-- Sets the links that vertex `id` had against those that it records now. -/
def settle (id : NodeId) (inbound outbound nowInbound nowOutbound : List Link) : Settlement :=
  outbound.foldl (Settlement.settleOutbound id)
    (inbound.foldl (Settlement.settleInbound id) { inbound := nowInbound, outbound := nowOutbound })

namespace Graph

variable {φ : Flavour} {ν ρ : Type} [Vertex φ ν]

/-! ### Repair -/

/-- Records a link again at those of its ends that are ports of vertex `id`. -/
def restore (id : NodeId) (g : Graph ν) (l : Link) : Graph ν :=
  let g := if l.input.node = id then g.adjustPort .incoming l.input (·.link l.output) else g
  if l.output.node = id then g.adjustPort .outgoing l.output (·.link l.input) else g

/-- Removes a lost link of vertex `id` at its far end. The ends of a loop are both ports of the
vertex, where nothing is left to remove. -/
def dropLost (id : NodeId) (g : Graph ν) (l : Link) : Journaled (Graph ν) :=
  if l.isLoopAt id then pure g
  else
    let (d, far, near) :=
      if l.input.node = id then (Direction.outgoing, l.output, l.input)
      else (Direction.incoming, l.input, l.output)
    do
      Journaled.reportIf (!g.records d far near) (.dropMismatch l)
      Journaled.report (.dropped g.id l)
      return g.adjustPort d far (·.unlink near)

/-- Tells the vertex its membership unless it reports the right one. -/
def rebind (g : Graph ν) (id : NodeId) (v : ν) : Journaled ν :=
  if Vertex.membership v = some ⟨g.id, id⟩ then pure v
  else do
    Journaled.report (.rebound g.id id)
    Vertex.onJoin (some ⟨g.id, id⟩) v

/-- Stores the revised vertex `v` in place of vertex `id`, which had the links `inbound` and
`outbound`, and brings the connections of the graph in line with it. -/
def repair (g : Graph ν) (id : NodeId) (inbound outbound : List Link) (v : ν) :
    Journaled (Graph ν) := do
  let v ← g.rebind id v
  let s := settle id inbound outbound (Vertex.links .incoming id v) (Vertex.links .outgoing id v)
  Journaled.reportIf (s.hasUnmanaged id) (.unmanagedLinks g.id id)
  let g := g.adjust id fun _ => Vertex.clearLinks v
  let g := s.kept.foldl (restore id) g
  s.lost.foldlM (dropLost id) g

/-! ### Revision -/

/-- Revises a vertex. The function gives the revised vertex and an answer for the caller; it is not
run if there is no such vertex. -/
def modify (g : Graph ν) (id : NodeId) (f : ν → Journaled (ν × ρ)) :
    Journaled (Graph ν × Except GraphError ρ) :=
  match g.find? id with
  | none => pure (g, .error (.notFound id))
  | some v => do
    let (w, answer) ← f v
    let g ← g.repair id (Vertex.links .incoming id v) (Vertex.links .outgoing id v) w
    return (g, .ok answer)

/-- Swaps a vertex with one of another graph, by a revision of the one within a revision of the
other. -/
def swapVertices (g : Graph ν) (id : NodeId) (h : Graph ν) (id' : NodeId) :
    Journaled (Graph ν × Graph ν × Except GraphError Unit) := do
  let (g, answer) ← g.modify id fun v => do
    let (h, answer) ← h.modify id' fun w => pure (v, w)
    match answer with
    | .ok w => return (w, h, .ok ())
    | .error e => return (v, h, .error e)
  match answer with
  | .ok (h, answer) => return (g, h, answer)
  | .error e => return (g, h, .error e)

/-- Revises every vertex in ascending order, as `modify` does for one. The function passes a state
on from one vertex to the next. -/
def modifyEach {σ : Type} (g : Graph ν) (f : σ → NodeId → ν → Journaled (ν × σ)) (s : σ) :
    Journaled (Graph ν × σ) :=
  g.ids.foldlM (fun (g, s) id => do
    let (g, answer) ← g.modify id (f s id)
    match answer with
    | .ok s => return (g, s)
    | .error e => do
      Journaled.report (.reviseFailed e)
      return (g, s)) (g, s)

end Graph

end PortGraph
