import PortGraph.Error

/-!
# Ports

A port knows its offset and the ports on the other end of its connections, its opposites, in the
order in which they were connected. Ports come in two flavours: a single port has at most one
opposite, a multiple port any number, with one entry for each of several parallel connections. The
operations here change one end of a connection; a graph changes both.
-/

namespace PortGraph

/-- How many connections a port admits. -/
inductive Flavour where
  /-- At most one. -/
  | single
  /-- Any number, also several to the same port. -/
  | multi
deriving DecidableEq

/-- A connection point of a vertex. -/
structure Port (φ : Flavour) where
  offset : Nat
  opposites : List Slot
  length_le : φ = .single → opposites.length ≤ 1
deriving DecidableEq

namespace Port

variable {φ : Flavour}

theorem ext {p q : Port φ} (ho : p.offset = q.offset) (hl : p.opposites = q.opposites) : p = q := by
  cases p; cases q; cases ho; cases hl; rfl

/-! ### Construction and inspection -/

/-- The unconnected port with the given offset. -/
def new (offset : Nat) : Port φ := ⟨offset, [], fun _ => Nat.zero_le _⟩

/-- The unconnected ports with the offsets below `count`. -/
def row (count : Nat) : List (Port φ) := (List.range count).map new

/-- Whether the port has an opposite. -/
def isConnected (p : Port φ) : Bool := !p.opposites.isEmpty

/-- The opposite of a single port. -/
def opposite (p : Port .single) : Option Slot := p.opposites.head?

/-- The number of connections to `other`. -/
def count (p : Port φ) (other : Slot) : Nat := p.opposites.count other

/-! ### Changes at one end -/

/-- Whether the port `this`, of direction `d`, can take a connection to `other`. A multiple port
always can. A single port can if it is free; `false` says that it has the connection already. -/
def checkLink (p : Port φ) (d : Direction) (this other : Slot) : Except ConnectError Bool :=
  match φ, p.opposites with
  | .multi, _ => .ok true
  | .single, [] => .ok true
  | .single, current :: _ =>
    if current = other then .ok false
    else .error (.alreadyConnected (this.at d) (current.at d.opposite))

/-- Whether the port `this`, of direction `d`, has a connection to `other`. To ask it of a single
port that is connected elsewhere is an error. -/
def checkUnlink (p : Port φ) (d : Direction) (this other : Slot) : Except ConnectError Bool :=
  match φ, p.opposites with
  | .multi, opposites => .ok (opposites.contains other)
  | .single, [] => .ok false
  | .single, current :: _ =>
    if current = other then .ok true
    else .error (.inconsistentConnection (this.at d) (other.at d.opposite))

/-- Records a connection to `other`: after the others at a multiple port, in their place at a single
one. -/
def link (p : Port φ) (other : Slot) : Port φ where
  offset := p.offset
  opposites := match φ with
    | .single => [other]
    | .multi => p.opposites ++ [other]
  length_le := by rintro rfl; exact Nat.le_refl 1

/-- Forgets the earliest connection to `other`. -/
def unlink (p : Port φ) (other : Slot) : Port φ where
  offset := p.offset
  opposites := p.opposites.erase other
  length_le h := Nat.le_trans List.erase_sublist.length_le (p.length_le h)

/-- Forgets all connections. -/
def clear (p : Port φ) : Port φ := new p.offset

/-- Renames the vertices of the opposites. Opposites whose vertex has no new name are forgotten. -/
def rename (p : Port φ) (name : NodeId → Option NodeId) : Port φ where
  offset := p.offset
  opposites := p.opposites.filterMap fun s => (name s.node).map fun node => { s with node }
  length_le h := Nat.le_trans (List.length_filterMap_le _ _) (p.length_le h)

/-- A copy of a port starts out unconnected. -/
def copy (p : Port φ) : Port φ := p.clear

/-! ### Laws -/

@[simp] theorem opposites_new (offset : Nat) : (new offset : Port φ).opposites = [] := rfl

@[simp] theorem offset_new (offset : Nat) : (new offset : Port φ).offset = offset := rfl

@[simp] theorem opposites_clear (p : Port φ) : p.clear.opposites = [] := rfl

@[simp] theorem offset_clear (p : Port φ) : p.clear.offset = p.offset := rfl

@[simp] theorem opposites_unlink (p : Port φ) (other : Slot) :
    (p.unlink other).opposites = p.opposites.erase other := rfl

@[simp] theorem offset_unlink (p : Port φ) (other : Slot) : (p.unlink other).offset = p.offset :=
  rfl

@[simp] theorem offset_link (p : Port φ) (other : Slot) : (p.link other).offset = p.offset := rfl

/-- A connection is recorded after the others wherever the port had room for it. -/
theorem opposites_link {p : Port φ} {other : Slot} (h : φ = .multi ∨ p.opposites = []) :
    (p.link other).opposites = p.opposites ++ [other] := by
  cases φ with
  | single => rcases h with h | h
              · cases h
              · simp [link, h]
  | multi => rfl

theorem isConnected_iff {p : Port φ} : p.isConnected = true ↔ p.opposites ≠ [] := by
  simp [isConnected]

/-! ### Texts -/

/-- The text of a port of direction `d`: its place in its vertex, then its opposites. -/
def text (d : Direction) (p : Port φ) : String :=
  let place := d.text ++ "[" ++ toString p.offset ++ "]"
  if p.opposites.isEmpty then place
  else place ++ " -> " ++ Text.commaSeparated (p.opposites.map (Slot.text d.opposite))

/-- The structural text of a port of direction `d`. -/
def inspect (d : Direction) (p : Port φ) : String :=
  let opposites := p.opposites.map (Slot.inspect d.opposite)
  match φ with
  | .single =>
    Text.record "Port" [("direction", d.inspect), ("offset", toString p.offset),
      ("opposite", Text.optional opposites.head?)]
  | .multi =>
    Text.record "Multiport" [("direction", d.inspect), ("offset", toString p.offset),
      ("opposites", Text.list opposites)]

end Port

end PortGraph
