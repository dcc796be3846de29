import PortGraph.Error

/-!
# The journal of an operation

Besides its result an operation leaves a journal: the events by which a graph reports what it did,
and the notices that vertices give when they join or leave a graph. `Journaled α` is a result with
the journal kept on the way to it. The result of a sequence of steps does not depend on the journal
(`val_bind`), and the journals of the steps follow each other (`journal_bind`).
-/

namespace PortGraph

/-! ### Events -/

/-- What a graph reports. -/
inductive Event where
  /-- A vertex was stored. -/
  | inserted (graph : GraphId) (node : NodeId)
  /-- A vertex was removed and destroyed. -/
  | erased (graph : GraphId) (node : NodeId)
  /-- All vertices are about to be destroyed. -/
  | cleared (graph : GraphId) (vertices : Nat)
  /-- A vertex is about to be handed out as an orphan. -/
  | released (graph : GraphId) (node : NodeId)
  /-- Some vertices were moved to another graph. -/
  | releasedInto (source dest : GraphId) (vertices : Nat)
  /-- Two ports were connected. -/
  | connected (graph : GraphId) (port opposite : Address)
  /-- Two ports were disconnected. -/
  | disconnected (graph : GraphId) (port opposite : Address)
  /-- A revised vertex had lost its membership and got it back. -/
  | rebound (graph : GraphId) (node : NodeId)
  /-- A connection went missing while a vertex was revised. -/
  | dropped (graph : GraphId) (link : Link)
  /-- A revised vertex records connections that nobody made. -/
  | unmanagedLinks (graph : GraphId) (node : NodeId)
  /-- All vertices were moved to another graph. -/
  | moved (source dest : GraphId) (vertices : Nat)
  /-- All vertices were copied to another graph. -/
  | copied (source dest : GraphId) (vertices : Nat)
  /-- A search came back to a vertex that it has not left yet. -/
  | cycle (graph : GraphId) (node : NodeId)
  /-- Two ports to be connected disagree on whether they are. -/
  | connectMismatch (port opposite : Address)
  /-- Two ports to be disconnected disagree on whether they are connected. -/
  | disconnectMismatch (port opposite : Address)
  /-- A connection of a vertex that goes away could not be removed. -/
  | severFailed (error : ConnectError)
  /-- The far end of a missing connection did not record it. -/
  | dropMismatch (link : Link)
  /-- A connection could not be repeated in a copy. -/
  | cloneFailed (error : ConnectError)
  /-- A vertex to be revised was gone. -/
  | reviseFailed (error : GraphError)
deriving DecidableEq

/-- How much an event matters. -/
inductive Severity where
  | trace
  | debug
  | warning
deriving DecidableEq

/-- The word for a severity. -/
def Severity.text : Severity → String
  | trace => "TRACE"
  | debug => "DEBUG"
  | warning => "WARN"

/-- The value of a field of an event. -/
inductive Field where
  | text (s : String)
  | count (n : Nat)
deriving DecidableEq

namespace Event

/-- How much an event matters: losses that an operation explains are traced, whole-graph operations
are of interest when debugging, and a contradiction is a warning. -/
def severity : Event → Severity
  | inserted .. | erased .. | cleared .. | released .. | connected .. | disconnected ..
  | rebound .. | dropped .. => .trace
  | releasedInto .. | moved .. | copied .. | cycle .. => .debug
  | unmanagedLinks .. | connectMismatch .. | disconnectMismatch .. | severFailed ..
  | dropMismatch .. | cloneFailed .. | reviseFailed .. => .warning

/-- The name of an event. -/
def name : Event → String
  | inserted .. => "graph.insert"
  | erased .. => "graph.erase"
  | cleared .. => "graph.clear"
  | released .. | releasedInto .. => "graph.release"
  | connected .. => "graph.connect"
  | disconnected .. => "graph.disconnect"
  | rebound .. => "graph.modify.rebind"
  | dropped .. => "graph.modify.disconnect"
  | unmanagedLinks .. => "graph.modify.unmanaged_links"
  | moved .. => "graph.merge.move"
  | copied .. => "graph.merge.copy"
  | cycle .. => "graph.sort.cycle"
  | connectMismatch .. => "graph.connect.inconsistent"
  | disconnectMismatch .. => "graph.disconnect.inconsistent"
  | severFailed .. => "graph.sever.error"
  | dropMismatch .. => "graph.modify.inconsistent"
  | cloneFailed .. => "graph.clone.inconsistent"
  | reviseFailed .. => "graph.modify.error"

/-- The fields of an event. -/
def fields : Event → List (String × Field)
  | inserted graph node | erased graph node | released graph node | rebound graph node
  | unmanagedLinks graph node | cycle graph node =>
    [("graph", .text graph.text), ("node", .text node.text)]
  | cleared graph vertices => [("graph", .text graph.text), ("vertices", .count vertices)]
  | releasedInto source dest vertices | moved source dest vertices | copied source dest vertices =>
    [("source", .text source.text), ("dest", .text dest.text), ("vertices", .count vertices)]
  | connected graph port opposite | disconnected graph port opposite =>
    [("graph", .text graph.text), ("port", .text port.text), ("opposite", .text opposite.text)]
  | dropped graph link =>
    [("graph", .text graph.text), ("output", .text (link.output.text .outgoing)),
      ("input", .text (link.input.text .incoming))]
  | dropMismatch link =>
    [("output", .text (link.output.text .outgoing)), ("input", .text (link.input.text .incoming))]
  | connectMismatch port opposite | disconnectMismatch port opposite =>
    [("port", .text port.text), ("opposite", .text opposite.text)]
  | severFailed error | cloneFailed error => [("error", .text error.message)]
  | reviseFailed error => [("error", .text error.message)]

end Event

/-! ### Notices -/

/-- What a vertex says about its own fate. -/
inductive Notice where
  /-- The vertex joined a graph. -/
  | joined (name : String) (membership : Membership)
  /-- The vertex belongs to no graph now. -/
  | orphaned (name : String)
  /-- The vertex is about to leave its graph. -/
  | left (name : String)
deriving DecidableEq

/-- The words of a notice. -/
def Notice.text : Notice → String
  | joined name m => s!"join {name} {m.graph.text} {m.id.text}"
  | orphaned name => s!"orphan {name}"
  | left name => s!"leave {name}"

/-! ### Journals -/

/-- An entry of a journal. -/
inductive Entry where
  | event (event : Event)
  | notice (notice : Notice)
deriving DecidableEq

/-- The events of a journal, in order. -/
def events (journal : List Entry) : List Event :=
  journal.filterMap fun
    | .event e => some e
    | .notice _ => none

/-- The notices of a journal, in order. -/
def notices (journal : List Entry) : List Notice :=
  journal.filterMap fun
    | .event _ => none
    | .notice n => some n

/-- A result together with the journal kept on the way to it. -/
structure Journaled (α : Type) where
  val : α
  journal : List Entry

namespace Journaled

variable {α β : Type}

theorem ext {x y : Journaled α} (hv : x.val = y.val) (hj : x.journal = y.journal) : x = y := by
  cases x; cases y; cases hv; cases hj; rfl

instance : Monad Journaled where
  pure a := ⟨a, []⟩
  bind x f := ⟨(f x.val).val, x.journal ++ (f x.val).journal⟩

@[simp] theorem val_pure (a : α) : (pure a : Journaled α).val = a := rfl

@[simp] theorem journal_pure (a : α) : (pure a : Journaled α).journal = [] := rfl

@[simp] theorem val_bind (x : Journaled α) (f : α → Journaled β) :
    (x >>= f).val = (f x.val).val := rfl

@[simp] theorem journal_bind (x : Journaled α) (f : α → Journaled β) :
    (x >>= f).journal = x.journal ++ (f x.val).journal := rfl

instance : LawfulMonad Journaled :=
  LawfulMonad.mk' Journaled
    (fun x => ext rfl (List.append_nil x.journal))
    (fun a f => ext rfl (List.nil_append (f a).journal))
    (fun x _ _ => ext rfl (List.append_assoc x.journal _ _))

@[simp] theorem val_map (f : α → β) (x : Journaled α) : (f <$> x).val = f x.val := rfl

@[simp] theorem journal_map (f : α → β) (x : Journaled α) : (f <$> x).journal = x.journal :=
  List.append_nil x.journal

/-- A fold of journaled steps has the result of the fold without the journals. -/
theorem val_foldlM (f : β → α → Journaled β) (b : β) (as : List α) :
    (as.foldlM f b).val = as.foldl (fun b a => (f b a).val) b := by
  induction as generalizing b with
  | nil => rfl
  | cons a rest ih => exact ih (f b a).val

/-- Enters an event. -/
def report (e : Event) : Journaled Unit := ⟨(), [.event e]⟩

/-- Enters a notice. -/
def announce (n : Notice) : Journaled Unit := ⟨(), [.notice n]⟩

/-- Enters an event if a condition holds. -/
def reportIf (condition : Bool) (e : Event) : Journaled Unit :=
  if condition then report e else pure ()

@[simp] theorem journal_report (e : Event) : (report e).journal = [.event e] := rfl

@[simp] theorem journal_announce (n : Notice) : (announce n).journal = [.notice n] := rfl

end Journaled

end PortGraph
