import PortGraph.Workspace.Snapshot

/-!
# Edits

What a workspace can do with a vertex that it has in hand: relabel it, replace it, tell it that it
joined or left, and work on its ports. Vertices and ports that are in no graph lie about as loose
parts, and edits can swap them in and out.
-/

namespace PortGraph

/-! ### Loose parts -/

/-- The vertices and ports that are in no graph. -/
structure LooseParts (φ : Flavour) (ν : Type) where
  stash : List ν := []
  inputs : List (Port φ) := []
  outputs : List (Port φ) := []

namespace LooseParts

variable {φ : Flavour} {ν : Type}

/-- The spare ports of one direction. -/
def spares (parts : LooseParts φ ν) : Direction → List (Port φ)
  | .incoming => parts.inputs
  | .outgoing => parts.outputs

/-- Overwrites the spare ports of one direction. -/
def setSpares (parts : LooseParts φ ν) : Direction → List (Port φ) → LooseParts φ ν
  | .incoming, ports => { parts with inputs := ports }
  | .outgoing, ports => { parts with outputs := ports }

/-- Puts a vertex at the end of the stash. -/
def push (parts : LooseParts φ ν) (v : ν) : LooseParts φ ν :=
  { parts with stash := parts.stash ++ [v] }

end LooseParts

/-! ### Edits and what they answer -/

/-- A change to a vertex in hand. -/
inductive Edit where
  /-- Changes the label. -/
  | relabel (label : String)
  /-- Replaces the vertex by a new one. -/
  | replace (blueprint : Blueprint)
  /-- Replaces the vertex by its copy. -/
  | copySelf
  /-- Tells the vertex that it leaves its graph. -/
  | leave
  /-- Tells the vertex that it belongs to no graph. -/
  | orphan
  /-- Tells the vertex that it joined a graph, with the membership that vertex `id` of graph `slot`
  has; `none` stands for a number that identifies no vertex. -/
  | join (slot : Nat) (id : Option NodeId)
  /-- Puts the vertex on the stash and goes on with a new one. -/
  | take (blueprint : Blueprint)
  /-- Swaps the vertex with one of the stash. -/
  | swapStash (entry : Nat)
  /-- Only looks. -/
  | peek
  /-- Replaces a port by a new one with any offset. -/
  | resetPort (d : Direction) (position offset : Nat)
  /-- Swaps two ports of one direction. -/
  | swapPorts (d : Direction) (position position' : Nat)
  /-- Replaces a port by its copy. -/
  | copyPort (d : Direction) (position : Nat)
  /-- Puts a port with its opposites among the spares, and a new one in its place. -/
  | takePort (d : Direction) (position : Nat)
  /-- Swaps a port with a spare one. -/
  | putPort (d : Direction) (position spare : Nat)
deriving DecidableEq

/-- What an edit answers. -/
inductive EditReply where
  | done
  /-- Whether the label was changed. -/
  | relabelled (changed : Bool)
  | seen (snapshot : VertexSnapshot)
  | noStash
  | noSpare
  | noPort
deriving DecidableEq

/-- A vertex in hand, and the loose parts around it. -/
structure Bench (φ : Flavour) (ν : Type) where
  vertex : ν
  parts : LooseParts φ ν

namespace Edit

variable {φ : Flavour} {ν : Type} [Workpiece φ ν]

/-- Goes on with a vertex. -/
def proceed (b : Bench φ ν) (v : ν) : Bench φ ν × EditReply := ({ b with vertex := v }, .done)

/-- Goes on with a vertex that was told something. -/
def proceedWith (b : Bench φ ν) (v : Journaled ν) : Journaled (Bench φ ν × EditReply) := do
  return proceed b (← v)

/-- Works on the port at a position, if there is one. -/
def atPort (b : Bench φ ν) (d : Direction) (position : Nat)
    (f : Port φ → Bench φ ν × EditReply) : Bench φ ν × EditReply :=
  match Vertex.port? d position b.vertex with
  | none => (b, .noPort)
  | some p => f p

/-- Puts a port at a position of a vertex. -/
def setPort (d : Direction) (position : Nat) (p : Port φ) (v : ν) : ν :=
  Vertex.adjustPort d position (fun _ => p) v

/-- Carries out an edit. `seat` gives the memberships of the vertices that are in graphs. -/
def apply (seat : Nat → NodeId → Option Membership) (b : Bench φ ν) :
    Edit → Journaled (Bench φ ν × EditReply)
  | relabel label =>
    match Workpiece.relabel? label b.vertex with
    | some v => pure ({ b with vertex := v }, .relabelled true)
    | none => pure (b, .relabelled false)
  | replace blueprint => pure (proceed b (Workpiece.make blueprint))
  | copySelf => pure (proceed b (Vertex.copy b.vertex))
  | leave => proceedWith b (Vertex.onLeave b.vertex)
  | orphan => proceedWith b (Vertex.onJoin none b.vertex)
  | join slot id => proceedWith b (Vertex.onJoin (id.bind (seat slot)) b.vertex)
  | take blueprint => pure (⟨Workpiece.make blueprint, b.parts.push b.vertex⟩, .done)
  | swapStash entry =>
    match b.parts.stash[entry]? with
    | none => pure (b, .noStash)
    | some v =>
      pure (⟨v, { b.parts with stash := b.parts.stash.set entry b.vertex }⟩, .done)
  | peek => pure (b, .seen (.of b.vertex))
  | resetPort d position offset =>
    pure (atPort b d position fun _ => proceed b (setPort d position (.new offset) b.vertex))
  | swapPorts d position position' =>
    pure (atPort b d position fun p => atPort b d position' fun p' =>
      proceed b (setPort d position' p (setPort d position p' b.vertex)))
  | copyPort d position =>
    pure (atPort b d position fun p => proceed b (setPort d position p.copy b.vertex))
  | takePort d position =>
    pure (atPort b d position fun p =>
      (⟨setPort d position (.new position) b.vertex,
        b.parts.setSpares d (b.parts.spares d ++ [p])⟩, .done))
  | putPort d position spare =>
    pure (atPort b d position fun p =>
      match (b.parts.spares d)[spare]? with
      | none => (b, .noSpare)
      | some p' =>
        (⟨setPort d position p' b.vertex, b.parts.setSpares d ((b.parts.spares d).set spare p)⟩,
          .done))

/-- Carries out edits one after the other. -/
def applyAll (seat : Nat → NodeId → Option Membership) (b : Bench φ ν) :
    List Edit → Journaled (Bench φ ν × List EditReply)
  | [] => pure (b, [])
  | e :: rest => do
    let (b, reply) ← e.apply seat b
    let (b, replies) ← applyAll seat b rest
    return (b, reply :: replies)

end Edit

end PortGraph
