import PortGraph.Graph.Search
import PortGraph.Proofs.Runs

/-!
# Sessions

A session works on a pool of graphs by calls of all public operations. Each call takes the graphs
that it is carried out on out of the pool and puts what becomes of them back; it may make a graph,
which receives the next identifier for graphs, and consume one. Vertices come from anywhere, with
whatever connections and membership they carry.

While a call calls a function, that function can do with the other graphs whatever a session can do:
`Session.call` has a session within it, on the graphs that the call leaves in the pool. What the
function makes of the vertex it is given is up to it, so that a vertex can be swapped with one of
another graph, or carried off.

Along with the graphs that it comes to, a session has the list of its calls, in the order in which
they return, so that what they answer and report can be spoken about. No call takes a
`Graph.Invariant` from its graphs (`Call.all_leaves`), and no session does (`Session.all`).
-/

namespace PortGraph

variable {φ : Flavour} {ν : Type}

/-! ## Calls -/

/-- Several graphs. -/
structure Pool (ν : Type) where
  graphs : List (Graph ν)
  /-- The identifier for the next graph. -/
  next : GraphId

/-- The pool without graphs, from which sessions start. -/
def Pool.start : Pool ν := ⟨[], .first⟩

/-- A call of an operation, with the graphs it is carried out on. Where a function is called, what
it does to a vertex is given; what it does besides is a session of its own. -/
inductive Call (φ : Flavour) (ν : Type) : Type 1 where
  | insert (g : Graph ν) (v : ν)
  | insertCopy (g : Graph ν) (v : ν)
  | connect (g : Graph ν) (d : Direction) (port opposite : Slot)
  | link (g : Graph ν) (l : Link)
  | disconnect (g : Graph ν) (d : Direction) (port opposite : Slot)
  | disconnectAll (g : Graph ν) (d : Direction) (port : Slot)
  | erase (g : Graph ν) (id : NodeId)
  | release (g : Graph ν) (id : NodeId)
  | clear (g : Graph ν)
  | retain {σ : Type} (g : Graph ν) (keep : NodeId → ν → StateM σ Bool) (s : σ)
  | modify (g : Graph ν) (id : NodeId) (f : ν → ν)
  | modifyEach {σ : Type} (g : Graph ν) (f : σ → NodeId → ν → ν × σ) (s : σ)
  | sort (g : Graph ν) (d : Direction)
  /-- Makes an empty graph. -/
  | new (id : GraphId)
  | clone (g : Graph ν) (id : GraphId)
  | copyInto (source dest : Graph ν)
  | moveInto (source dest : Graph ν)
  | releaseInto (source : Graph ν) (subset : List NodeId) (dest : Graph ν)
  /-- Moves vertices into a new graph, which is given up if nothing is moved. -/
  | releaseSet (source : Graph ν) (subset : List NodeId) (id : GraphId)
  /-- Takes a graph apart into orphans. -/
  | dissolve (g : Graph ν)
  /-- Destroys a graph. -/
  | discard (g : Graph ν)

/-- What comes of a call. -/
structure Outcome (ν : Type) where
  /-- What became of the graphs, and those that were made. -/
  graphs : List (Graph ν)
  error? : Option GraphError := none
  /-- The identifiers for vertices that the answer names, each with the graph that handed it out. -/
  issued : List (GraphId × NodeId) := []
  /-- Vertices handed out. -/
  orphans : List ν := []

/-- The other graph, if it received the vertices. -/
def Transfer.filled (t : Transfer ν) : List (Graph ν) :=
  match t.answer with
  | .ok _ => [t.dest]
  | .error _ => []

theorem Transfer.eq_of_mem_filled {t : Transfer ν} {g : Graph ν} (hg : g ∈ t.filled) :
    g = t.dest := by
  unfold filled at hg
  split at hg
  · exact List.mem_singleton.mp hg
  · cases hg

namespace Outcome

variable {α : Type}

/-- The identifiers that an answer names, none if it is an error. -/
def named (issued : α → List NodeId) : Except GraphError α → List NodeId
  | .ok a => issued a
  | .error _ => []

/-- An answer about vertices. The identifiers that it names are those of the graph `issuer`. -/
def answer (graphs : List (Graph ν)) (issuer : Graph ν) (issued : α → List NodeId)
    (a : Except GraphError α) : Outcome ν where
  graphs
  error? := match a with
    | .ok _ => none
    | .error e => some e
  issued := (named issued a).map fun k => (issuer.id, k)

/-- An answer about connections. -/
def connection (g : Graph ν) (a : Except ConnectError α) : Outcome ν where
  graphs := [g]
  error? := match a with
    | .ok _ => none
    | .error e => some (.connect e)

theorem error?_answer {graphs : List (Graph ν)} {issuer : Graph ν} {issued : α → List NodeId}
    {a : Except GraphError α} {e : GraphError} :
    (answer graphs issuer issued a).error? = some e ↔ a = .error e := by
  cases a <;> simp [answer]

theorem error?_connection {g : Graph ν} {a : Except ConnectError α} {e : GraphError} :
    (connection g a).error? = some e ↔ ∃ x, a = .error x ∧ e = .connect x := by
  cases a <;> simp [connection, eq_comm]

end Outcome

namespace Call

/-- The graphs that are taken out of the pool. -/
def takes : Call φ ν → List (Graph ν)
  | insert g _ | insertCopy g _ | connect g _ _ _ | link g _ | disconnect g _ _ _
  | disconnectAll g _ _ | erase g _ | release g _ | clear g | retain g _ _ | modify g _ _
  | modifyEach g _ _ | sort g _ | clone g _ | releaseSet g _ _ | dissolve g | discard g => [g]
  | copyInto source dest | moveInto source dest | releaseInto source _ dest => [source, dest]
  | new _ => []

/-- The identifier that is used up for a graph. -/
def made : Call φ ν → Option GraphId
  | new id | clone _ id | releaseSet _ _ id => some id
  | _ => none

/-- The identifier for the next graph after that. -/
def after (c : Call φ ν) (n : GraphId) : GraphId :=
  match c.made with
  | none => n
  | some _ => n.next

theorem le_after (c : Call φ ν) (n : GraphId) : n.val ≤ (c.after n).val := by
  unfold after
  split
  · exact Nat.le_refl _
  · exact Nat.le_succ _

/-- Vertices are carried or copied from one graph to another. -/
def merges : Call φ ν → Bool
  | copyInto .. | moveInto .. | releaseInto .. | releaseSet .. => true
  | _ => false

variable [Vertex φ ν]

/-- Carries out a call. -/
def run : Call φ ν → Journaled (Outcome ν)
  | insert g v => do
    let (g, answer) ← g.insert v
    return .answer [g] g (fun k => [k]) answer
  | insertCopy g v => do
    let (g, answer) ← g.insertCopy v
    return .answer [g] g (fun k => [k]) answer
  | connect g d port opposite => do
    let (g, answer) ← g.connect d port opposite
    return .connection g answer
  | link g l => do
    let (g, answer) ← g.link l
    return .connection g answer
  | disconnect g d port opposite => do
    let (g, answer) ← g.disconnect d port opposite
    return .connection g answer
  | disconnectAll g d port => do
    let (g, answer) ← g.disconnectAll d port
    return .connection g answer
  | erase g id => do
    let (g, _) ← g.erase id
    return { graphs := [g] }
  | release g id => do
    let (g, orphan) ← g.release id
    return { graphs := [g], orphans := orphan.toList }
  | clear g => do
    return { graphs := [← g.clear] }
  | retain g keep s => do
    let (g, _) ← g.retain keep s
    return { graphs := [g] }
  | modify g id f => do
    let (g, answer) ← g.modify id fun v => pure (f v, ())
    return .answer [g] g (fun _ => []) answer
  | modifyEach g f s => do
    let (g, _) ← g.modifyEach (fun s id v => pure (f s id v)) s
    return { graphs := [g] }
  | sort g d => do
    let _ ← g.sort d
    return { graphs := [g] }
  | new id => pure { graphs := [.empty id] }
  | clone g id => do
    return { graphs := [g, ← g.clone id] }
  | copyInto source dest => do
    let (dest, answer) ← source.copyInto dest
    return .answer [source, dest] dest IdMap.values answer
  | moveInto source dest => do
    let t ← source.moveInto dest
    return .answer [t.source, t.dest] t.dest IdMap.values t.answer
  | releaseInto source subset dest => do
    let t ← source.releaseInto subset dest
    return .answer [t.source, t.dest] t.dest IdMap.values t.answer
  | releaseSet source subset id => do
    let t ← source.releaseSet subset id
    return .answer (t.source :: t.filled) t.dest IdMap.values t.answer
  | dissolve g => do
    let orphans ← g.intoOrphans
    return { graphs := [], orphans := orphans.map Prod.snd }
  | discard _ => pure { graphs := [] }

/-- The graphs that are put back into the pool. -/
def leaves (c : Call φ ν) : List (Graph ν) := c.run.val.graphs

/-- The error that is returned, if any. -/
def error? (c : Call φ ν) : Option GraphError := c.run.val.error?

/-- The identifiers for vertices that are returned, each with the graph that handed it out. -/
def issued (c : Call φ ν) : List (GraphId × NodeId) := c.run.val.issued

/-- The vertices that are handed out. -/
def orphans (c : Call φ ν) : List ν := c.run.val.orphans

/-- What is reported. -/
def journal (c : Call φ ν) : List Entry := c.run.journal

end Call

/-! ## Sessions -/

/-- The call can be made in the pool `p` and leaves the graphs `others` there. -/
structure Pool.Offers (p : Pool ν) (c : Call φ ν) (others : List (Graph ν)) : Prop where
  takes : p.graphs.Perm (c.takes ++ others)
  /-- A graph that is made receives the next identifier. -/
  made : ∀ id ∈ c.made, id = p.next

namespace Pool.Offers

variable {p : Pool ν} {c : Call φ ν} {others : List (Graph ν)} {g : Graph ν}

theorem mem_of_takes (hc : p.Offers c others) (hg : g ∈ c.takes) : g ∈ p.graphs :=
  hc.takes.mem_iff.mpr (List.mem_append_left _ hg)

theorem mem_of_others (hc : p.Offers c others) (hg : g ∈ others) : g ∈ p.graphs :=
  hc.takes.mem_iff.mpr (List.mem_append_right _ hg)

end Pool.Offers

/-- The pool `p` becomes `q` by the calls `cs`. -/
inductive Session [Vertex φ ν] : Pool ν → List (Call φ ν) → Pool ν → Prop
  | nil (p : Pool ν) : Session p [] p
  /-- A call is made, and while it takes its time there is another session on the other graphs. -/
  | call {p q r : Pool ν} {cs ds : List (Call φ ν)} {c : Call φ ν} {others : List (Graph ν)}
    (h : Session p cs q) (hc : q.Offers c others)
    (hwithin : Session ⟨others, c.after q.next⟩ ds r) :
    Session p (cs ++ ds ++ [c]) ⟨c.leaves ++ r.graphs, r.next⟩

/-! ## Invariants -/

variable [Vertex φ ν]

/-- No call takes an invariant from the graphs that it is carried out on, and the graphs that it
makes have it too. -/
theorem Call.all_leaves {P : GraphId → Graph ν → Prop} (hP : Graph.Invariant P) {c : Call φ ν}
    {n : GraphId} (hmade : ∀ id ∈ c.made, id = n) (h : ∀ g ∈ c.takes, P n g) :
    ∀ g ∈ c.leaves, P (c.after n) g := by
  -- of most calls one graph is taken and one comes back
  have one {g : Graph ν} (hg : P n g) : ∀ f ∈ [g], P n f := List.forall_mem_singleton.mpr hg
  have two {m : GraphId} {f g : Graph ν} (hfg : P m f ∧ P m g) : ∀ x ∈ [f, g], P m x :=
    List.forall_mem_cons.mpr ⟨hfg.1, List.forall_mem_singleton.mpr hfg.2⟩
  have hle : n.val ≤ n.next.val := Nat.le_succ n.val
  cases c with
  | insert g v => exact one (hP.alteration (h g (.head _)) (.insert g v))
  | insertCopy g v => exact one (hP.alteration (h g (.head _)) (.insertCopy g v))
  | connect g d p q => exact one (hP.alteration (h g (.head _)) (.connect g d p q))
  | link g l => exact one (hP.alteration (h g (.head _)) (.link g l))
  | disconnect g d p q => exact one (hP.alteration (h g (.head _)) (.disconnect g d p q))
  | disconnectAll g d p => exact one (hP.alteration (h g (.head _)) (.disconnectAll g d p))
  | erase g id => exact one (hP.alteration (h g (.head _)) (.erase g id))
  | release g id => exact one (hP.alteration (h g (.head _)) (.release g id))
  | clear g => exact one (hP.alteration (h g (.head _)) (.clear g))
  | retain g keep s => exact one (hP.retain (h g (.head _)) keep s)
  | modify g id f => exact one (hP.modify (h g (.head _)) id _)
  | modifyEach g f s =>
    have hrevised := Graph.modifyEach_invariant (Q := P n) (P := fun _ => True)
      (fun _ id f hg => hP.modify hg id f) (fun _ _ _ _ => trivial) (h g (.head _))
      (f := fun s id v => pure (f s id v)) (x := s) trivial
    exact one hrevised.1
  | sort g d => exact one (h g (.head _))
  | new id =>
    rw [hmade id rfl]
    exact List.forall_mem_singleton.mpr (hP.empty n)
  | clone g id =>
    rw [hmade id rfl]
    exact two ⟨hP.mono hle (h g (.head _)), hP.clone (h g (.head _))⟩
  | copyInto source dest =>
    have hsource := h source (.head _)
    exact two ⟨hsource, hP.copyInto hsource (h dest (.tail _ (.head _)))⟩
  | moveInto source dest =>
    exact two (hP.moveInto (h source (.head _)) (h dest (.tail _ (.head _))))
  | releaseInto source subset dest =>
    exact two (hP.releaseInto (h source (.head _)) (h dest (.tail _ (.head _))) subset)
  | releaseSet source subset id =>
    rw [hmade id rfl]
    have hmoved := hP.releaseInto (hP.mono hle (h source (.head _))) (hP.empty n) subset
    refine List.forall_mem_cons.mpr ⟨hmoved.1, fun g hg => ?_⟩
    rw [Transfer.eq_of_mem_filled hg]
    exact hmoved.2
  | dissolve g => exact List.forall_mem_nil _
  | discard g => exact List.forall_mem_nil _

/-- All graphs of the pool satisfy `P`. -/
def Pool.All (P : GraphId → Graph ν → Prop) (p : Pool ν) : Prop := ∀ g ∈ p.graphs, P p.next g

namespace Session

variable {P : GraphId → Graph ν → Prop} {p q r : Pool ν} {cs : List (Call φ ν)}

/-- A call is made, and nothing happens while it takes its time. -/
theorem step {c : Call φ ν} {others : List (Graph ν)} (h : Session p cs q)
    (hc : q.Offers c others) :
    Session p (cs ++ [c]) ⟨c.leaves ++ others, c.after q.next⟩ := by
  have hcall := h.call hc (.nil _)
  rwa [List.append_nil] at hcall

/-- Identifiers for graphs do not go back. -/
theorem next_le (h : Session p cs q) : p.next.val ≤ q.next.val := by
  induction h with
  | nil => exact Nat.le_refl _
  | @call _ q _ _ _ c _ _ _ _ ih ihwithin =>
    exact Nat.le_trans ih (Nat.le_trans (c.le_after q.next) ihwithin)

/-- What a session keeps of the graphs of its pool holds of all graphs that its calls take, and of
those that it comes to. -/
theorem all (hP : Graph.Invariant P) (h : Session p cs q) (hp : p.All P) :
    (∀ c ∈ cs, ∃ n, ∀ g ∈ c.takes, P n g) ∧ q.All P := by
  induction h with
  | nil => exact ⟨fun c hc => absurd hc List.not_mem_nil, hp⟩
  | @call p q r cs ds c others _ hc hwithin ih ihwithin =>
    obtain ⟨hcs, hq⟩ := ih hp
    have htaken : ∀ g ∈ c.takes, P q.next g := fun g hg => hq g (hc.mem_of_takes hg)
    have hothers : Pool.All P ⟨others, c.after q.next⟩ := fun g hg =>
      hP.mono (c.le_after q.next) (hq g (hc.mem_of_others hg))
    obtain ⟨hds, hr⟩ := ihwithin hothers
    constructor
    · intro d hd
      rcases List.mem_append.mp hd with hd | hd
      · rcases List.mem_append.mp hd with hd | hd
        · exact hcs d hd
        · exact hds d hd
      · rw [List.mem_singleton.mp hd]
        exact ⟨q.next, htaken⟩
    · intro g hg
      rcases List.mem_append.mp hg with hg | hg
      · exact hP.mono hwithin.next_le (Call.all_leaves hP hc.made htaken g hg)
      · exact hr g hg

end Session

end PortGraph
