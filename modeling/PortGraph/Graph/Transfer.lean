import PortGraph.Graph.Removal

/-!
# Moving vertices between graphs

Vertices that move leave one graph and join another under new identifiers, without being copied.
They take the connections among them along, renamed; a connection to a vertex that stays behind is
removed. All vertices of a graph can be moved, or a part of them.
-/

namespace PortGraph

/-- Two graphs after vertices were moved between them, and the new names of the vertices. -/
structure Transfer (ν : Type) where
  source : Graph ν
  dest : Graph ν
  answer : Except GraphError Renaming

namespace Graph

variable {φ : Flavour} {ν : Type} [Vertex φ ν]

/-- Moves the listed vertices one after the other, with the connections they record, until one is
refused, and extends the renaming by the identifiers they receive. -/
def carry (source dest : Graph ν) (names : Renaming) : List NodeId → Journaled (Transfer ν)
  | [] => pure ⟨source, dest, .ok names⟩
  | id :: rest => do
    let (source, found) ← source.unbind id
    match found with
    | none => source.carry dest names rest
    | some v => do
      let (dest, answer) ← dest.adopt v
      match answer with
      | .ok target => source.carry dest (names.insert id target) rest
      | .error e => return ⟨source, dest, .error e⟩

/-- Renames the opposites recorded by the vertices that were carried over. -/
def relink (g : Graph ν) (names : Renaming) : Graph ν :=
  names.values.foldl (fun g id => g.adjust id (Vertex.renameLinks names.get?)) g

/-- Moves every vertex of `source` into `dest`. The source is left empty, and its identifiers keep
counting from where they were. -/
def moveInto (source dest : Graph ν) : Journaled (Transfer ν) := do
  let t ← source.carry dest .empty source.ids
  let emptied := { t.source with vertices := .empty }
  match t.answer with
  | .error e => return ⟨emptied, t.dest, .error e⟩
  | .ok names => do
    Journaled.report (.moved source.id dest.id names.size)
    return ⟨emptied, t.dest.relink names, .ok names⟩

/-- Moves the vertices `subset` of `source` into `dest`. If one of them is not in the source,
nothing is moved, and the answer names the smallest such identifier. -/
def releaseInto (source : Graph ν) (subset : List NodeId) (dest : Graph ν) :
    Journaled (Transfer ν) :=
  match (subset.filter fun id => !source.contains id).min? with
  | some missing => pure ⟨source, dest, .error (.migrationTargetNotInSource missing)⟩
  | none => do
    let chosen := source.ids.filter subset.contains
    let source ← chosen.foldlM (fun g id => g.severWhere id subset.contains) source
    let t ← source.carry dest .empty chosen
    match t.answer with
    | .error _ => return t
    | .ok names => do
      Journaled.report (.releasedInto source.id dest.id names.size)
      return { t with dest := t.dest.relink names }

/-- Moves the vertices `subset` into a new graph with the given identifier. -/
def releaseSet (source : Graph ν) (subset : List NodeId) (id : GraphId) : Journaled (Transfer ν) :=
  source.releaseInto subset (empty id)

end Graph

end PortGraph
