import PortGraph.Text.Structural

/-!
# Identities of graphs and of the vertices they hold

A graph hands out the identifiers `1, 2, 3, ...` to its vertices, each at most once, and never runs
out of them. Graphs have identifiers of their own, and a vertex that belongs to a graph carries both
as its membership.
-/

namespace PortGraph

/-! ### Vertices -/

/-- The identifier of a vertex within its graph. Identifiers start at one. -/
structure NodeId where
  val : Nat
  pos : 0 < val
deriving DecidableEq

namespace NodeId

theorem ext {a b : NodeId} (h : a.val = b.val) : a = b := by
  cases a; cases b; cases h; rfl

/-- The first identifier a graph hands out. -/
def first : NodeId := ⟨1, Nat.one_pos⟩

/-- The identifier handed out right after this one. -/
def next (id : NodeId) : NodeId := ⟨id.val + 1, Nat.succ_pos _⟩

/-- The identifier with the given value; zero is none. -/
def ofNat? (n : Nat) : Option NodeId :=
  if h : 0 < n then some ⟨n, h⟩ else none

instance : LT NodeId := ⟨fun a b => a.val < b.val⟩

instance : LE NodeId := ⟨fun a b => a.val ≤ b.val⟩

instance (a b : NodeId) : Decidable (a < b) := inferInstanceAs (Decidable (a.val < b.val))

instance (a b : NodeId) : Decidable (a ≤ b) := inferInstanceAs (Decidable (a.val ≤ b.val))

instance : Min NodeId := ⟨fun a b => if a ≤ b then a else b⟩

theorem lt_def {a b : NodeId} : a < b ↔ a.val < b.val := Iff.rfl

theorem le_def {a b : NodeId} : a ≤ b ↔ a.val ≤ b.val := Iff.rfl

theorem lt_trans {a b c : NodeId} (h : a < b) (h' : b < c) : a < c :=
  Nat.lt_trans h h'

theorem lt_irrefl (a : NodeId) : ¬a < a :=
  Nat.lt_irrefl a.val

theorem lt_next (id : NodeId) : id < id.next :=
  Nat.lt_succ_self id.val

theorem lt_of_not_lt_of_ne {a b : NodeId} (h : ¬a < b) (hne : a ≠ b) : b < a :=
  Nat.lt_of_le_of_ne (Nat.le_of_not_lt h) fun heq => hne (ext heq.symm)

/-- The short text of an identifier. -/
def text (id : NodeId) : String := "n" ++ toString id.val

/-- The structural text of an identifier. -/
def inspect (id : NodeId) : String := Text.tagged "NodeIndex" [toString id.val]

end NodeId

/-! ### Graphs -/

/-- The identifier of a graph. -/
structure GraphId where
  val : Nat
deriving DecidableEq

namespace GraphId

/-- The identifier of the first graph. -/
def first : GraphId := ⟨1⟩

/-- The identifier of the graph made right after this one. -/
def next (id : GraphId) : GraphId := ⟨id.val + 1⟩

/-- The short text of an identifier. -/
def text (id : GraphId) : String := "g" ++ toString id.val

/-- The structural text of an identifier. -/
def inspect (id : GraphId) : String := Text.tagged "GraphId" [toString id.val]

end GraphId

/-! ### Membership -/

/-- The graph a vertex belongs to, and the identifier it has there. -/
structure Membership where
  graph : GraphId
  id : NodeId
deriving DecidableEq

/-- The structural text of a membership. -/
def Membership.inspect (m : Membership) : String :=
  Text.record "Membership" [("graph", m.graph.inspect), ("id", m.id.inspect)]

/-- Where a vertex keeps its membership; an orphan has none. -/
structure Binding where
  membership : Option Membership := none
deriving DecidableEq

namespace Binding

/-- Two bindings count as equal when they carry the same vertex identifier, whatever the graph. -/
instance : BEq Binding :=
  ⟨fun a b => a.membership.map Membership.id == b.membership.map Membership.id⟩

theorem beq_iff {a b : Binding} :
    (a == b) = true ↔ a.membership.map Membership.id = b.membership.map Membership.id := by
  change (a.membership.map Membership.id == b.membership.map Membership.id) = true ↔ _
  exact beq_iff_eq

/-- A copy of a binding is unbound. -/
def copy (_ : Binding) : Binding := {}

/-- The structural text of a binding. -/
def inspect (b : Binding) : String :=
  Text.tagged "Binding" [Text.optional (b.membership.map Membership.inspect)]

end Binding

end PortGraph
