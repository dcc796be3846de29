import PortGraph.Graph.Connection

/-!
# Removing vertices

A vertex is erased, which destroys it, or released, which hands it out as an orphan. Either way all
of its connections are removed first, so that its former neighbours are left with disconnected
ports. Clearing a graph and taking it apart concern all vertices at once.
-/

namespace PortGraph.Graph

variable {φ : Flavour} {ν : Type}

/-- Destroys all vertices without telling them. Identifiers keep counting from where they were. -/
def clear (g : Graph ν) : Journaled (Graph ν) := do
  Journaled.report (.cleared g.id g.size)
  return { g with vertices := .empty }

variable [Vertex φ ν]

/-- Takes a vertex out of the graph without touching its connections, and tells it. -/
def unbind (g : Graph ν) (id : NodeId) : Journaled (Graph ν × Option ν) :=
  match g.find? id with
  | none => pure (g, none)
  | some v => do
    let v ← Vertex.onLeave v
    return ({ g with vertices := g.vertices.erase id }, some v)

/-- Removes a vertex and destroys it. The answer tells whether there was one. -/
def erase (g : Graph ν) (id : NodeId) : Journaled (Graph ν × Bool) :=
  if g.contains id then do
    let g ← g.severWhere id fun _ => false
    Journaled.report (.erased g.id id)
    return ({ g with vertices := g.vertices.erase id }, true)
  else pure (g, false)

/-- Removes a vertex and hands it out as an orphan without connections. -/
def release (g : Graph ν) (id : NodeId) : Journaled (Graph ν × Option ν) :=
  if g.contains id then do
    let g ← g.severWhere id fun _ => false
    Journaled.report (.released g.id id)
    g.unbind id
  else pure (g, none)

/-- Asks `keep` about every vertex in ascending order, and returns the identifiers of those that are
not to be kept. -/
def rejected {σ : Type} (g : Graph ν) (keep : NodeId → ν → StateM σ Bool) :
    StateM σ (List NodeId) := do
  let doomed ← g.vertices.entries.filterM fun (id, v) => do return !(← keep id v)
  return doomed.map Prod.fst

/-- Erases every vertex that is not to be kept. All vertices are asked about before the first is
erased. -/
def retain {σ : Type} (g : Graph ν) (keep : NodeId → ν → StateM σ Bool) (s : σ) :
    Journaled (Graph ν × σ) := do
  let (doomed, s) := (g.rejected keep).run s
  let g ← doomed.foldlM (fun g id => do return (← g.erase id).1) g
  return (g, s)

/-- Takes the graph apart into orphans without connections, in ascending order of their former
identifiers. -/
def intoOrphans (g : Graph ν) : Journaled (List (NodeId × ν)) :=
  g.vertices.entries.mapM fun (id, v) => do return (id, ← Vertex.onLeave (Vertex.clearLinks v))

end PortGraph.Graph
