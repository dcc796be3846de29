import PortGraph.Graph.Copying
import PortGraph.Graph.Revision
import PortGraph.Graph.Transfer
import PortGraph.Workspace.Change
import PortGraph.Workspace.Query

/-!
# Workspaces

A workspace holds any number of graphs in numbered slots, a stash of vertices that are in no graph,
and spare ports. `run` carries out a command: a query or a change to one graph, or something that
concerns several graphs or the loose parts. Every new graph gets the next identifier, also one that
is given up right away.

A command that names a missing graph or a missing entry of the stash is refused and changes nothing.
If several things are missing, the first one looked for gives the fault. A vertex to be copied is
looked for before the graph for its copy, and the graph for a vertex of the stash before the vertex.
Edits are looked at before the graph they are for, but after the entry of the stash they are for.
-/

namespace PortGraph

/-! ### State -/

/-- Several graphs, and what lies about around them. -/
structure Workspace (φ : Flavour) (ν : Type) where
  graphs : List (Graph ν)
  /-- The identifier for the next graph. -/
  next : GraphId
  parts : LooseParts φ ν := {}

/-- What to do in a workspace. Graphs are given by their slots. Where an identifier may be `none`,
that stands for a number that identifies no vertex. -/
inductive Command where
  | query (slot : Nat) (query : Query)
  | change (slot : Nat) (change : Change)
  /-- Adds an empty graph. -/
  | new
  /-- Adds a copy of a graph. -/
  | clone (slot : Nat)
  /-- Moves vertices into a new graph. -/
  | releaseSet (slot : Nat) (ids : List NodeId)
  /-- Inserts a copy of vertex `id` of the graph `source`. -/
  | insertCopy (slot source : Nat) (id : Option NodeId)
  /-- Puts a new vertex on the stash. -/
  | stash (blueprint : Blueprint)
  /-- Inserts a vertex of the stash. -/
  | insertStash (slot entry : Nat)
  /-- Inserts a copy of a vertex of the stash. -/
  | copyStash (slot entry : Nat)
  /-- Destroys a vertex of the stash. -/
  | dropStash (entry : Nat)
  /-- Edits a vertex of the stash and puts it at the end. -/
  | editStash (entry : Nat) (edits : List Edit)
  /-- Moves a vertex from a graph to the stash. -/
  | release (slot : Nat) (id : NodeId)
  | modify (slot : Nat) (id : Option NodeId) (edits : List Edit)
  | modifyEach (slot : Nat) (edits : List Edit)
  | swapVertices (slot : Nat) (id : NodeId) (slot' : Nat) (id' : NodeId)
  | copyInto (source dest : Nat)
  | moveInto (source dest : Nat)
  | releaseInto (source dest : Nat) (ids : List NodeId)
  /-- Compares two different graphs. -/
  | compareGraphs (slot slot' : Nat)
  | compareVertices (slot : Nat) (id : NodeId) (slot' : Nat) (id' : NodeId)
  | compareBindings (slot : Nat) (id : NodeId) (slot' : Nat) (id' : NodeId)
  /-- Takes a graph apart, leaving a new one in its slot; the orphans go to the stash. -/
  | dissolve (slot : Nat) (moves : List Move)
deriving DecidableEq

namespace Workspace

variable {φ : Flavour} {ν : Type}

/-- A workspace with one empty graph. -/
def start : Workspace φ ν := ⟨[.empty .first], GraphId.first.next, {}⟩

/-- Puts a graph into its slot. -/
def setGraph (w : Workspace φ ν) (slot : Nat) (g : Graph ν) : Workspace φ ν :=
  { w with graphs := w.graphs.set slot g }

/-- Adds a graph with the identifier for the next graph. -/
def addGraph (w : Workspace φ ν) (g : Graph ν) : Workspace φ ν × Reply :=
  ({ w with graphs := w.graphs ++ [g], next := w.next.next }, .made w.graphs.length g.id)

/-- The identifier for the next graph is given up. -/
def skipGraph (w : Workspace φ ν) : Workspace φ ν := { w with next := w.next.next }

/-- What a command makes of a workspace, and its reply. -/
abbrev Outcome (φ : Flavour) (ν : Type) := Workspace φ ν × Reply

/-- Refuses a command. -/
def refuse (w : Workspace φ ν) (f : Fault) : Journaled (Outcome φ ν) := pure (w, .fault f)

/-- Goes on with the graph in a slot. -/
def withGraph (w : Workspace φ ν) (slot : Nat) (f : Graph ν → Journaled (Outcome φ ν)) :
    Journaled (Outcome φ ν) :=
  match w.graphs[slot]? with
  | none => w.refuse .noGraph
  | some g => f g

/-- Goes on with two graphs that have to be different. -/
def withDistinct (w : Workspace φ ν) (slot slot' : Nat)
    (f : Graph ν → Graph ν → Journaled (Outcome φ ν)) : Journaled (Outcome φ ν) :=
  w.withGraph slot fun g => w.withGraph slot' fun h =>
    if slot = slot' then w.refuse .sameGraph else f g h

/-- Goes on with an entry of the stash. -/
def withStash (w : Workspace φ ν) (entry : Nat) (f : ν → Journaled (Outcome φ ν)) :
    Journaled (Outcome φ ν) :=
  match w.parts.stash[entry]? with
  | none => w.refuse .noStash
  | some v => f v

/-- Goes on with an identifier. -/
def withId (w : Workspace φ ν) (id : Option NodeId) (f : NodeId → Journaled (Outcome φ ν)) :
    Journaled (Outcome φ ν) :=
  match id with
  | none => w.refuse .zeroId
  | some id => f id

/-- The stash without an entry; later ones move up. -/
def removeStash (w : Workspace φ ν) (entry : Nat) : Workspace φ ν :=
  { w with parts := { w.parts with stash := w.parts.stash.eraseIdx entry } }

/-- Puts a vertex at the end of the stash. -/
def push (w : Workspace φ ν) (v : ν) : Workspace φ ν := { w with parts := w.parts.push v }

variable [Workpiece φ ν]

/-- The membership of a vertex of the graph in a slot. -/
def seat (w : Workspace φ ν) (slot : Nat) (id : NodeId) : Option Membership :=
  w.graphs[slot]?.bind fun g => (g.find? id).bind Vertex.membership

/-- Why an edit cannot be made: it asks about a membership where there is no graph, or without an
identifier. -/
def seatFault? (w : Workspace φ ν) : Edit → Option Fault
  | .join slot id =>
    if w.graphs.length ≤ slot then some .noGraph else if id.isNone then some .zeroId else none
  | _ => none

/-- Goes on if every edit can be made; if not, the first that cannot gives the fault. -/
def withSeats (w : Workspace φ ν) (edits : List Edit) (f : Journaled (Outcome φ ν)) :
    Journaled (Outcome φ ν) :=
  match edits.findSome? w.seatFault? with
  | some fault => w.refuse fault
  | none => f

/-! ### Commands on loose vertices -/

/-- Inserts a vertex of the stash. -/
def insertStash (w : Workspace φ ν) (slot entry : Nat) : Journaled (Outcome φ ν) :=
  w.withGraph slot fun g => w.withStash entry fun v => do
    let (g, answer) ← g.insert v
    return ((w.removeStash entry).setGraph slot g, .ofGraph .id answer)

/-- Inserts a copy of a vertex. -/
def insertCopy (w : Workspace φ ν) (slot : Nat) (v : ν) : Journaled (Outcome φ ν) :=
  w.withGraph slot fun g => do
    let (g, answer) ← g.insertCopy v
    return (w.setGraph slot g, .ofGraph .id answer)

/-- Edits a vertex of the stash, with the rest of the stash at hand, and puts it at the end. -/
def editStash (w : Workspace φ ν) (entry : Nat) (edits : List Edit) : Journaled (Outcome φ ν) :=
  w.withStash entry fun v => w.withSeats edits do
    let (b, replies) ← Edit.applyAll w.seat ⟨v, (w.removeStash entry).parts⟩ edits
    return ({ w with parts := b.parts.push b.vertex }, .edited replies)

/-- Moves a vertex from a graph to the stash. -/
def release (w : Workspace φ ν) (slot : Nat) (id : NodeId) : Journaled (Outcome φ ν) :=
  w.withGraph slot fun g => do
    let (g, orphan) ← g.release id
    match orphan with
    | none => return (w.setGraph slot g, .nothing)
    | some v => return ((w.setGraph slot g).push v, .vertex (.of v))

/-- Takes a graph apart. -/
def dissolve (w : Workspace φ ν) (slot : Nat) (moves : List Move) : Journaled (Outcome φ ν) :=
  w.withGraph slot fun g => do
    let orphans ← g.intoOrphans
    let walk := Walk.along false ⟨orphans⟩ moves
    let emptied := (w.setGraph slot (.empty w.next)).skipGraph
    return (walk.yielded.foldl (fun w (_, v) => w.push v) emptied,
      .orphanWalk (walk.map fun (id, v) => (id, .of v)))

/-! ### Commands that revise vertices -/

/-- Revises a vertex by edits. -/
def modify (w : Workspace φ ν) (slot : Nat) (id : Option NodeId) (edits : List Edit) :
    Journaled (Outcome φ ν) :=
  w.withSeats edits <| w.withId id fun id => w.withGraph slot fun g => do
    let (g, answer) ← g.modify id fun v => do
      let (b, replies) ← Edit.applyAll w.seat ⟨v, w.parts⟩ edits
      return (b.vertex, b.parts, replies)
    match answer with
    | .error e => return (w.setGraph slot g, .fault (.graph e))
    | .ok (parts, replies) => return ({ w.setGraph slot g with parts }, .edited replies)

/-- Revises every vertex by the same edits. -/
def modifyEach (w : Workspace φ ν) (slot : Nat) (edits : List Edit) : Journaled (Outcome φ ν) :=
  w.withSeats edits <| w.withGraph slot fun g => do
    let (g, parts, replies) ← g.modifyEach
      (fun (parts, seen) id v => do
        let (b, replies) ← Edit.applyAll w.seat ⟨v, parts⟩ edits
        return (b.vertex, b.parts, seen ++ [(id, replies)]))
      (w.parts, [])
    return ({ w.setGraph slot g with parts }, .editedEach replies)

/-- Swaps vertices of two graphs. -/
def swapVertices (w : Workspace φ ν) (slot : Nat) (id : NodeId) (slot' : Nat) (id' : NodeId) :
    Journaled (Outcome φ ν) :=
  w.withDistinct slot slot' fun g h => do
    let (g, h, answer) ← g.swapVertices id h id'
    return ((w.setGraph slot g).setGraph slot' h, .ofGraph (fun _ => .done) answer)

/-! ### Commands on whole graphs -/

/-- Moves vertices into a new graph. Its identifier is used up even if nothing is moved. -/
def releaseSet (w : Workspace φ ν) (slot : Nat) (ids : List NodeId) : Journaled (Outcome φ ν) :=
  w.withGraph slot fun g => do
    let t ← g.releaseSet ids w.next
    let w := w.setGraph slot t.source
    match t.answer with
    | .ok _ => return w.addGraph t.dest
    | .error e => return (w.skipGraph, .fault (.graph e))

/-- Copies the vertices of a graph into another. -/
def copyInto (w : Workspace φ ν) (source dest : Nat) : Journaled (Outcome φ ν) :=
  w.withDistinct source dest fun g h => do
    let (h, answer) ← g.copyInto h
    return (w.setGraph dest h, .ofGraph .renaming answer)

/-- Stores what became of two graphs. -/
def settleTransfer (w : Workspace φ ν) (source dest : Nat) (t : Transfer ν) :
    Workspace φ ν × Reply :=
  ((w.setGraph source t.source).setGraph dest t.dest, .ofGraph .renaming t.answer)

/-- Whether two different graphs are equal. -/
def compareGraphs (w : Workspace φ ν) (slot slot' : Nat) : Journaled (Outcome φ ν) :=
  w.withDistinct slot slot' fun g h =>
    pure (w, .equality (Workpiece.same?.map fun same => g.sameWith same h)
      (Workpiece.same?.map fun same => g.sameWith same g))

/-- How two vertices compare. -/
def compareVertices (w : Workspace φ ν) (slot : Nat) (id : NodeId) (slot' : Nat) (id' : NodeId) :
    Journaled (Outcome φ ν) :=
  w.withGraph slot fun g => w.withGraph slot' fun h =>
    pure (w, .ofGraph (fun (v, v') => .vertexComparison (.of v v'))
      (do return (← g.get id, ← h.get id')))

/-- How the bindings of two vertices compare; an absent vertex counts as unbound. -/
def compareBindings (w : Workspace φ ν) (slot : Nat) (id : NodeId) (slot' : Nat) (id' : NodeId) :
    Journaled (Outcome φ ν) :=
  w.withGraph slot fun _ => w.withGraph slot' fun _ =>
    pure (w, .bindingComparison (.of ⟨w.seat slot id⟩ ⟨w.seat slot' id'⟩))

/-! ### Running -/

/-- Carries out a command. -/
def run (w : Workspace φ ν) : Command → Journaled (Outcome φ ν)
  | .query slot q => w.withGraph slot fun g => do return (w, ← q.answer g)
  | .change slot c => w.withGraph slot fun g => do
    let (g, reply) ← c.apply g
    return (w.setGraph slot g, reply)
  | .new => pure (w.addGraph (.empty w.next))
  | .clone slot => w.withGraph slot fun g => do return w.addGraph (← g.clone w.next)
  | .releaseSet slot ids => w.releaseSet slot ids
  | .insertCopy slot source id =>
    w.withGraph source fun h => w.withId id fun id =>
      match h.get id with
      | .error e => w.refuse (.graph e)
      | .ok v => w.insertCopy slot v
  | .stash b => pure (w.push (Workpiece.make b), .count w.parts.stash.length)
  | .insertStash slot entry => w.insertStash slot entry
  | .copyStash slot entry => w.withStash entry (w.insertCopy slot)
  | .dropStash entry =>
    w.withStash entry fun v => pure (w.removeStash entry, .ofOption .text (Workpiece.weight? v))
  | .editStash entry edits => w.editStash entry edits
  | .release slot id => w.release slot id
  | .modify slot id edits => w.modify slot id edits
  | .modifyEach slot edits => w.modifyEach slot edits
  | .swapVertices slot id slot' id' => w.swapVertices slot id slot' id'
  | .copyInto source dest => w.copyInto source dest
  | .moveInto source dest =>
    w.withDistinct source dest fun g h => do
      return w.settleTransfer source dest (← g.moveInto h)
  | .releaseInto source dest ids =>
    w.withDistinct source dest fun g h => do
      return w.settleTransfer source dest (← g.releaseInto ids h)
  | .compareGraphs slot slot' => w.compareGraphs slot slot'
  | .compareVertices slot id slot' id' => w.compareVertices slot id slot' id'
  | .compareBindings slot id slot' id' => w.compareBindings slot id slot' id'
  | .dissolve slot moves => w.dissolve slot moves

/-! ### What can be seen -/

/-- The snapshots of all graphs. -/
def snapshots (w : Workspace φ ν) : List GraphSnapshot := w.graphs.map .of

/-- The snapshots of the stash. -/
def stashSnapshots (w : Workspace φ ν) : List VertexSnapshot := w.parts.stash.map .of

/-- The slots whose snapshot is not the one of before, with their snapshots. -/
def changesSince (before : List GraphSnapshot) (w : Workspace φ ν) : List (Nat × GraphSnapshot) :=
  w.snapshots.zipIdx.filterMap fun (snapshot, slot) =>
    if before[slot]? = some snapshot then none else some (slot, snapshot)

end Workspace

end PortGraph
