import Mathlib.Data.List.Forall2
import PortGraph.Proofs.Runs
import PortGraph.Proofs.Widening

/-!
# The same operations on graphs of either flavour

An `Operation` can be carried out on graphs of weighted vertices with single ports, and on such with
multiple ports. When operations that were carried out on the former are replayed on the latter
(`replay`), connections that single ports did not make are left out: multiple ports would make them.
Then the graphs look the same at any time, and all operations are answered alike, except that a
single port refuses to be disconnected from what it is not connected to while it is connected
elsewhere (`sides_matched`).

The reason is that the graphs with multiple ports are the others, widened (`sides_eq`). Copies are
connected like the originals, so that single ports accept all of it; this takes that the graphs are
consistent, which they always are (`sound_run`).
-/

namespace PortGraph

/-! ## Operations -/

/-- What is done with graphs and orphans. Graphs are given by their slots and orphans by their
entries. The questions of `retain` are about a vertex with its ports as multiple ports, which tell
all that there is to be told of single ones. -/
inductive Operation (σ ω : Type) where
  /-- Adds an empty graph. -/
  | new
  /-- Makes an orphan. -/
  | make (weight : ω) (inputs outputs : Nat)
  | insert (slot entry : Nat)
  /-- Inserts a copy of vertex `id` of the graph `source`. -/
  | insertCopy (slot source : Nat) (id : NodeId)
  | connect (slot : Nat) (d : Direction) (p q : Slot)
  | disconnect (slot : Nat) (d : Direction) (p q : Slot)
  | disconnectAll (slot : Nat) (d : Direction) (p : Slot)
  | erase (slot : Nat) (id : NodeId)
  | release (slot : Nat) (id : NodeId)
  | retain (slot : Nat) (keep : NodeId → Node .multi ω → StateM σ Bool) (s : σ)
  | clear (slot : Nat)
  /-- Adds a copy of a graph. -/
  | clone (slot : Nat)
  | copyInto (source dest : Nat)
  | moveInto (source dest : Nat)
  | releaseInto (source dest : Nat) (subset : List NodeId)

/-- What an operation answers. -/
inductive Answer (σ ω : Type) where
  /-- There is no such graph or orphan, or two graphs are the same one. -/
  | absent
  | done
  | made (slot : Nat) (id : GraphId)
  | inserted (answer : Except GraphError NodeId)
  | connected (answer : Except ConnectError Bool)
  | disconnected (answer : Except ConnectError Bool)
  | disconnectedAll (answer : Except ConnectError Nat)
  | erased (found : Bool)
  | released (found : Option (Node .multi ω))
  | retained (s : σ)
  | transferred (answer : Except GraphError Renaming)

namespace Operation

variable {φ : Flavour} {σ ω : Type}

/-- What an operation comes to. -/
abbrev Outcome (φ : Flavour) (σ ω : Type) := Workspace φ (Node φ ω) × Answer σ ω

/-- Goes on with the graph in a slot. -/
def onGraph (w : Workspace φ (Node φ ω)) (slot : Nat) (f : Graph (Node φ ω) → Outcome φ σ ω) :
    Outcome φ σ ω :=
  match w.graphs[slot]? with
  | none => (w, .absent)
  | some g => f g

/-- Goes on with two graphs that have to be different. -/
def onGraphs (w : Workspace φ (Node φ ω)) (source dest : Nat)
    (f : Graph (Node φ ω) → Graph (Node φ ω) → Outcome φ σ ω) : Outcome φ σ ω :=
  onGraph w source fun g => onGraph w dest fun h =>
    if source = dest then (w, .absent) else f g h

/-- Puts what has become of a graph into its slot. -/
def put {α : Type} (w : Workspace φ (Node φ ω)) (slot : Nat) (answer : α → Answer σ ω)
    (made : Graph (Node φ ω) × α) : Outcome φ σ ω :=
  (w.setGraph slot made.1, answer made.2)

/-- Inserts a vertex, if there is one, into the graph of a slot. -/
def putIn (w : Workspace φ (Node φ ω)) (slot : Nat)
    (insert : Node φ ω → Graph (Node φ ω) × Except GraphError NodeId) :
    Option (Node φ ω) → Outcome φ σ ω
  | none => (w, .absent)
  | some v => put w slot .inserted (insert v)

/-- Puts an orphan next to the others, if there is one. -/
def keepOrphan (w : Workspace φ (Node φ ω)) : Option (Node φ ω) → Workspace φ (Node φ ω)
  | none => w
  | some v => w.push v

/-- Puts what has become of two graphs into their slots. -/
def settle (w : Workspace φ (Node φ ω)) (source dest : Nat) (t : Transfer (Node φ ω)) :
    Outcome φ σ ω :=
  ((w.settleTransfer source dest t).1, .transferred t.answer)

/-- Carries out an operation. -/
def run (w : Workspace φ (Node φ ω)) : Operation σ ω → Outcome φ σ ω
  | new => ((w.addGraph (.empty w.next)).1, .made w.graphs.length w.next)
  | make weight inputs outputs => (w.push (.new weight inputs outputs), .done)
  | insert slot entry =>
    onGraph w slot fun g =>
      putIn (w.removeStash entry) slot (fun v => (g.insert v).val) w.parts.stash[entry]?
  | insertCopy slot source id =>
    onGraph w slot fun g => onGraph w source fun h =>
      putIn w slot (fun v => (g.insertCopy v).val) (h.find? id)
  | connect slot d p q => onGraph w slot fun g => put w slot .connected (g.connect d p q).val
  | disconnect slot d p q =>
    onGraph w slot fun g => put w slot .disconnected (g.disconnect d p q).val
  | disconnectAll slot d p =>
    onGraph w slot fun g => put w slot .disconnectedAll (g.disconnectAll d p).val
  | erase slot id => onGraph w slot fun g => put w slot .erased (g.erase id).val
  | release slot id =>
    onGraph w slot fun g =>
      put (keepOrphan w (g.release id).val.2) slot (fun v => .released (v.map Node.widen))
        (g.release id).val
  | retain slot keep s =>
    onGraph w slot fun g => put w slot .retained (g.retain (fun k v => keep k v.widen) s).val
  | clear slot => onGraph w slot fun g => put w slot (fun () => .done) (g.clear.val, ())
  | clone slot =>
    onGraph w slot fun g =>
      ((w.addGraph (g.clone w.next).val).1, .made w.graphs.length w.next)
  | copyInto source dest =>
    onGraphs w source dest fun g h => put w dest .transferred (g.copyInto h).val
  | moveInto source dest =>
    onGraphs w source dest fun g h => settle w source dest (g.moveInto h).val
  | releaseInto source dest subset =>
    onGraphs w source dest fun g h => settle w source dest (g.releaseInto subset h).val

/-- Whether a connection was asked for and not made. -/
def vain : Operation σ ω → Answer σ ω → Bool
  | connect .., .connected (.ok true) => false
  | connect .., .connected _ => true
  | _, _ => false

/-! ### Graphs stay sound -/

section Sound

variable {w : Workspace φ (Node φ ω)} {slot source dest : Nat}

theorem sound_onGraph {f : Graph (Node φ ω) → Outcome φ σ ω} (hw : w.Sound)
    (hf : ∀ g, g.Sound → (f g).1.Sound) : (onGraph w slot f).1.Sound := by
  unfold onGraph
  cases hg : w.graphs[slot]? with
  | none => exact hw
  | some g => exact hf g (hw g (List.mem_of_getElem? hg))

theorem sound_onGraphs {f : Graph (Node φ ω) → Graph (Node φ ω) → Outcome φ σ ω} (hw : w.Sound)
    (hf : ∀ g h, g.Sound → h.Sound → (f g h).1.Sound) : (onGraphs w source dest f).1.Sound := by
  refine sound_onGraph hw fun g hg => sound_onGraph hw fun h hh => ?_
  split
  · exact hw
  · exact hf g h hg hh

theorem sound_put {α : Type} {answer : α → Answer σ ω} {made : Graph (Node φ ω) × α}
    (hw : w.Sound) (hmade : made.1.Sound) : (put w slot answer made).1.Sound :=
  Workspace.All.setGraph (P := fun _ g => g.Sound) hw slot hmade

theorem sound_putIn {insert : Node φ ω → Graph (Node φ ω) × Except GraphError NodeId}
    {v : Option (Node φ ω)} (hw : w.Sound) (hinsert : ∀ v, (insert v).1.Sound) :
    (putIn w slot insert v : Outcome φ σ ω).1.Sound := by
  cases v with
  | none => exact hw
  | some v => exact sound_put hw (hinsert v)

theorem sound_keepOrphan {v : Option (Node φ ω)} (hw : w.Sound) : (keepOrphan w v).Sound := by
  cases v with
  | none => exact hw
  | some v => exact hw

theorem sound_settle {t : Transfer (Node φ ω)} (hw : w.Sound)
    (ht : t.source.Sound ∧ t.dest.Sound) : (settle w source dest t : Outcome φ σ ω).1.Sound :=
  Workspace.All.settleTransfer (P := fun _ g => g.Sound) hw source dest ht

/-- No operation takes from a graph that it is sound. -/
theorem sound_run (op : Operation σ ω) (hw : w.Sound) : (op.run w).1.Sound := by
  have hadd {g : Graph (Node φ ω)} (hg : g.Sound) : (w.addGraph g).1.Sound :=
    Workspace.All.addGraph (P := fun _ g => g.Sound) hw Graph.invariant_sound hg
  cases op with
  | new => exact hadd (.of_vertices_eq_empty rfl)
  | make => exact hw
  | insert => exact sound_onGraph hw fun g hg => sound_putIn hw hg.insert
  | insertCopy =>
    exact sound_onGraph hw fun g hg => sound_onGraph hw fun _ _ =>
      sound_putIn hw fun v => hg.insert (Vertex.copy v)
  | connect _ d p q => exact sound_onGraph hw fun g hg => sound_put hw (hg.connect d p q)
  | disconnect _ d p q =>
    exact sound_onGraph hw fun g hg => sound_put hw (hg.alteration (.disconnect g d p q))
  | disconnectAll _ d p =>
    exact sound_onGraph hw fun g hg => sound_put hw (hg.alteration (.disconnectAll g d p))
  | erase _ id => exact sound_onGraph hw fun g hg => sound_put hw (hg.alteration (.erase g id))
  | release _ id =>
    exact sound_onGraph hw fun g hg =>
      sound_put (sound_keepOrphan hw) (hg.alteration (.release g id))
  | retain _ keep s =>
    exact sound_onGraph hw fun g hg =>
      sound_put hw (hg.excision (Graph.excision_retain hg.consistent _ s))
  | clear => exact sound_onGraph hw fun g _ => sound_put hw (.of_vertices_eq_empty rfl)
  | clone => exact sound_onGraph hw fun g hg => hadd (hg.clone _)
  | copyInto => exact sound_onGraphs hw fun g h _ hh => sound_put hw (hh.copyInto g)
  | moveInto => exact sound_onGraphs hw fun g h hg hh => sound_settle hw (hg.moveInto hh)
  | releaseInto _ _ subset =>
    exact sound_onGraphs hw fun g h hg hh => sound_settle hw (hg.releaseInto hh subset)

end Sound

end Operation

/-! ## Widened workspaces -/

/-- The workspace with all ports as multiple ports. -/
def Workspace.widen {φ : Flavour} {ω : Type} (w : Workspace φ (Node φ ω)) :
    Workspace .multi (Node .multi ω) where
  graphs := w.graphs.map Graph.widen
  next := w.next
  parts := ⟨w.parts.stash.map Node.widen, w.parts.inputs.map Port.widen,
    w.parts.outputs.map Port.widen⟩

namespace Workspace

variable {φ : Flavour} {ω : Type} (w : Workspace φ (Node φ ω))

theorem graphs_widen (slot : Nat) : w.widen.graphs[slot]? = w.graphs[slot]?.map Graph.widen :=
  List.getElem?_map

theorem length_graphs_widen : w.widen.graphs.length = w.graphs.length :=
  List.length_map Graph.widen

theorem setGraph_widen (slot : Nat) (g : Graph (Node φ ω)) :
    w.widen.setGraph slot g.widen = (w.setGraph slot g).widen := by
  unfold setGraph widen
  rw [List.map_set]

theorem addGraph_widen (g : Graph (Node φ ω)) :
    (w.widen.addGraph g.widen).1 = (w.addGraph g).1.widen := by
  unfold addGraph widen
  simp only [List.map_append, List.map_cons, List.map_nil]

theorem push_widen (v : Node φ ω) : w.widen.push v.widen = (w.push v).widen := by
  unfold push LooseParts.push widen
  simp only [List.map_append, List.map_cons, List.map_nil]

theorem removeStash_widen (entry : Nat) :
    w.widen.removeStash entry = (w.removeStash entry).widen := by
  have hstash := List.eraseIdx_map (f := Node.widen) w.parts.stash entry
  unfold removeStash widen
  simp only [hstash]

end Workspace

namespace Operation

variable {φ : Flavour} {σ ω : Type}

/-- What an operation comes to, with all ports as multiple ports. -/
def Outcome.widen (r : Outcome φ σ ω) : Outcome .multi σ ω := (r.1.widen, r.2)

section Widen

variable {w : Workspace φ (Node φ ω)} {slot source dest : Nat}

theorem onGraph_widen {f : Graph (Node φ ω) → Outcome φ σ ω}
    {f' : Graph (Node .multi ω) → Outcome .multi σ ω}
    (h : ∀ g, w.graphs[slot]? = some g → f' g.widen = (f g).widen) :
    onGraph w.widen slot f' = (onGraph w slot f).widen := by
  unfold onGraph
  rw [w.graphs_widen]
  cases hg : w.graphs[slot]? with
  | none => rfl
  | some g => exact h g hg

theorem onGraphs_widen {f : Graph (Node φ ω) → Graph (Node φ ω) → Outcome φ σ ω}
    {f' : Graph (Node .multi ω) → Graph (Node .multi ω) → Outcome .multi σ ω}
    (h : ∀ g k, w.graphs[source]? = some g → w.graphs[dest]? = some k →
      f' g.widen k.widen = (f g k).widen) :
    onGraphs w.widen source dest f' = (onGraphs w source dest f).widen := by
  refine onGraph_widen fun g hg => onGraph_widen fun k hk => ?_
  split
  · rfl
  · exact h g k hg hk

theorem put_widen {α : Type} {answer : α → Answer σ ω} {made : Graph (Node φ ω) × α}
    {made' : Graph (Node .multi ω) × α} (h : made' = (made.1.widen, made.2)) :
    put w.widen slot answer made' = (put w slot answer made).widen := by
  rw [h, put, w.setGraph_widen]
  rfl

theorem putIn_widen {insert : Node φ ω → Graph (Node φ ω) × Except GraphError NodeId}
    {insert' : Node .multi ω → Graph (Node .multi ω) × Except GraphError NodeId}
    (h : ∀ v, insert' v.widen = ((insert v).1.widen, (insert v).2)) (v : Option (Node φ ω)) :
    putIn w.widen slot insert' (v.map Node.widen) =
      Outcome.widen (putIn w slot insert v : Outcome φ σ ω) := by
  cases v with
  | none => rfl
  | some v => exact put_widen (h v)

theorem keepOrphan_widen (v : Option (Node φ ω)) :
    keepOrphan w.widen (v.map Node.widen) = (keepOrphan w v).widen := by
  cases v with
  | none => rfl
  | some v => exact w.push_widen v

theorem settle_widen (t : Transfer (Node φ ω)) :
    settle w.widen source dest t.widen =
      Outcome.widen (settle w source dest t : Outcome φ σ ω) := by
  unfold settle Workspace.settleTransfer
  change (((w.widen.setGraph source t.source.widen).setGraph dest t.dest.widen), _) = _
  rw [w.setGraph_widen, Workspace.setGraph_widen]
  rfl

/-- The answers to an operation agree: they are the same, unless a connection was to be removed from
a port that is connected elsewhere. -/
inductive Concur (w : Workspace φ (Node φ ω)) :
    Operation σ ω → Answer σ ω → Answer σ ω → Prop where
  | same (op : Operation σ ω) (answer : Answer σ ω) : Concur w op answer answer
  | disconnect {i : Nat} {g : Graph (Node φ ω)} (hg : w.graphs[i]? = some g) {d : Direction}
    {p q : Slot} {a b : Except ConnectError Bool} (hab : g.DisconnectAnswers d p q a b) :
    Concur w (.disconnect i d p q) (.disconnected a) (.disconnected b)

/-- An operation on widened graphs comes to what it comes to before they are widened. -/
def Fits (w : Workspace φ (Node φ ω)) (op : Operation σ ω) : Prop :=
  (op.run w.widen).1 = (op.run w).1.widen ∧ Concur w op (op.run w).2 (op.run w.widen).2

theorem Fits.of_eq {op : Operation σ ω} (h : op.run w.widen = (op.run w).widen) : Fits w op := by
  unfold Fits
  rw [h]
  exact ⟨rfl, .same op _⟩

/-- Where a connection was made with single ports, it is made with multiple ports. -/
theorem connect_run_widen {d : Direction} {p q : Slot}
    (h : vain (connect slot d p q : Operation σ ω) (run w (connect slot d p q)).2 = false) :
    (connect slot d p q : Operation σ ω).run w.widen = (run w (connect slot d p q)).widen := by
  refine onGraph_widen fun g hg => ?_
  rw [run, onGraph, hg] at h
  change vain (connect slot d p q : Operation σ ω) (.connected (g.connect d p q).val.2) = false at h
  have hmade : (g.connect d p q).val.2 = .ok true := by
    generalize (g.connect d p q).val.2 = answer at h
    match answer, h with
    | .ok true, _ => rfl
  exact put_widen (by rw [Graph.connect_widen hmade, hmade])

theorem fits_disconnect (d : Direction) (p q : Slot) :
    Fits w (disconnect slot d p q : Operation σ ω) := by
  cases hg : w.graphs[slot]? with
  | none =>
    refine .of_eq ?_
    rw [run, run]
    exact onGraph_widen fun g hg' => by rw [hg] at hg'; cases hg'
  | some g =>
    have hrun : (disconnect slot d p q : Operation σ ω).run w =
        put w slot .disconnected (g.disconnect d p q).val := by rw [run, onGraph, hg]
    have hrun' : (disconnect slot d p q : Operation σ ω).run w.widen =
        put w.widen slot .disconnected (g.widen.disconnect d p q).val := by
      rw [run, onGraph, w.graphs_widen, hg, Option.map_some]
    unfold Fits
    rw [hrun, hrun']
    refine ⟨?_, .disconnect hg (Graph.disconnect_widen_snd d p q)⟩
    rw [put, put, Graph.disconnect_widen_fst, w.setGraph_widen]

/-- Whatever single ports accept comes to the same with multiple ports. -/
theorem fits_run {op : Operation σ ω} (hw : w.Sound) (h : op.vain (op.run w).2 = false) :
    Fits w op := by
  have hsound {i : Nat} {g : Graph (Node φ ω)} (hg : w.graphs[i]? = some g) : g.Sound :=
    hw g (List.mem_of_getElem? hg)
  cases op with
  | disconnect slot d p q => exact fits_disconnect d p q
  | connect slot d p q => exact .of_eq (connect_run_widen h)
  | new =>
    refine .of_eq ?_
    rw [run, run]
    refine Prod.ext (w.addGraph_widen (.empty w.next)) ?_
    rw [w.length_graphs_widen]
    rfl
  | make weight inputs outputs =>
    refine .of_eq ?_
    rw [run, run, ← Node.widen_new, w.push_widen]
    rfl
  | insert slot entry =>
    refine .of_eq (onGraph_widen fun g _ => ?_)
    rw [w.removeStash_widen]
    have hentry : w.widen.parts.stash[entry]? = w.parts.stash[entry]?.map Node.widen :=
      List.getElem?_map
    rw [hentry]
    exact putIn_widen g.insert_widen _
  | insertCopy slot source id =>
    refine .of_eq (onGraph_widen fun g _ => onGraph_widen fun k _ => ?_)
    rw [k.find?_widen]
    exact putIn_widen g.insertCopy_widen _
  | disconnectAll slot d p =>
    exact .of_eq (onGraph_widen fun g _ => put_widen (g.disconnectAll_widen d p))
  | erase slot id => exact .of_eq (onGraph_widen fun g _ => put_widen (g.erase_widen id))
  | release slot id =>
    refine .of_eq (onGraph_widen fun g _ => ?_)
    rw [g.release_widen, keepOrphan_widen, put, Workspace.setGraph_widen, Option.map_map]
    simp only [Function.comp_def, Node.widen_multi]
    rfl
  | retain slot keep s =>
    refine .of_eq (onGraph_widen fun g _ => put_widen ?_)
    simp only [Node.widen_multi]
    exact g.retain_widen keep s
  | clear slot => exact .of_eq (onGraph_widen fun g _ => put_widen rfl)
  | clone slot =>
    refine .of_eq (onGraph_widen fun g hg => Prod.ext ?_ ?_)
    · change (w.widen.addGraph (g.widen.clone w.next).val).1 = _
      rw [g.clone_widen (hsound hg).consistent, w.addGraph_widen]
      rfl
    · rw [w.length_graphs_widen]
      rfl
  | copyInto source dest =>
    exact .of_eq (onGraphs_widen fun g k hg hk =>
      put_widen (g.copyInto_widen (hsound hg).consistent (hsound hk).bounded))
  | moveInto source dest =>
    refine .of_eq (onGraphs_widen fun g k _ _ => ?_)
    rw [g.moveInto_widen k]
    exact settle_widen _
  | releaseInto source dest subset =>
    refine .of_eq (onGraphs_widen fun g k _ _ => ?_)
    rw [g.releaseInto_widen k]
    exact settle_widen _

/-- Where a connection was not made, all is as it was. -/
theorem run_of_vain {op : Operation σ ω} (h : op.vain (op.run w).2 = true) : (op.run w).1 = w := by
  cases op with
  | connect slot d p q =>
    rw [run, onGraph] at h ⊢
    cases hg : w.graphs[slot]? with
    | none => rfl
    | some g =>
      rw [hg] at h
      have hnot : ¬g.Admits (.between d p q) := fun hadmits => by
        simp only [put, Graph.connect_of_admits hadmits] at h
        cases h
      simp only [put, (Graph.connect_of_not_admits hnot).1]
      exact w.setGraph_self hg
  | _ => cases h

end Widen

/-- Graphs with single ports, and graphs with multiple ports. -/
abbrev Sides (ω : Type) := Workspace .single (Node .single ω) × Workspace .multi (Node .multi ω)

/-- Carries out an operation on both sides, unless it is a connection that single ports do not make.
-/
def replay (x : Sides ω) (op : Operation σ ω) : Sides ω :=
  let (w, answer) := op.run x.1
  (w, if op.vain answer then x.2 else (op.run x.2).1)

/-- Both sides after some operations, from the beginning. -/
def sides (ops : List (Operation σ ω)) : Sides ω := ops.foldl replay (.start, .start)

/-- Operations lead from widened graphs to widened graphs. -/
theorem replay_widen (w : Workspace .single (Node .single ω)) (hw : w.Sound)
    (op : Operation σ ω) : replay (w, w.widen) op = ((op.run w).1, (op.run w).1.widen) := by
  unfold replay
  cases hvain : op.vain (op.run w).2 with
  | true => simp only [hvain, run_of_vain hvain, if_true]
  | false => simp [hvain, (fits_run hw hvain).1]

/-- The graphs with multiple ports are the others, widened. -/
theorem sides_eq (ops : List (Operation σ ω)) :
    (sides ops).1.Sound ∧ (sides ops).2 = (sides ops).1.widen := by
  have hrun (w : Workspace .single (Node .single ω)) (hw : w.Sound) :
      (ops.foldl replay (w, w.widen)).1.Sound ∧
        (ops.foldl replay (w, w.widen)).2 = (ops.foldl replay (w, w.widen)).1.widen := by
    induction ops generalizing w with
    | nil => exact ⟨hw, rfl⟩
    | cons op rest ih =>
      rw [List.foldl_cons, replay_widen w hw]
      exact ih _ (op.sound_run hw)
  refine hrun .start fun g hg => ?_
  rw [List.mem_singleton.mp hg]
  exact .of_vertices_eq_empty rfl

end Operation

/-! ## Looking the same -/

/-- A vertex with multiple ports looks like another one: it has its weight and its membership, and
ports with the same opposites. -/
structure Node.Mirrors {φ : Flavour} {ω : Type} (v : Node φ ω) (w : Node .multi ω) : Prop where
  weight_eq : w.weight = v.weight
  membership_eq : Vertex.membership w = Vertex.membership v
  opposites_eq (d : Direction) :
    (Vertex.ports d w).map Port.opposites = (Vertex.ports d v).map Port.opposites

/-- A graph with multiple ports looks like another one. -/
structure Graph.Mirrors {φ : Flavour} {ω : Type} (g : Graph (Node φ ω))
    (h : Graph (Node .multi ω)) : Prop where
  id_eq : h.id = g.id
  next_eq : h.next = g.next
  ids_eq : h.ids = g.ids
  vertices (k : NodeId) : Option.Rel Node.Mirrors (g.find? k) (h.find? k)
  opposites_eq (d : Direction) (s : Slot) : h.opposites d s = g.opposites d s
  neighbours_eq (d : Direction) (k : NodeId) : h.neighbours d k = g.neighbours d k
  isConnected_eq (d : Direction) (k : NodeId) : h.isConnected d k = g.isConnected d k
  top_eq : h.top = g.top
  bottom_eq : h.bottom = g.bottom
  upstream_eq (k : NodeId) : h.upstream k = g.upstream k
  downstream_eq (k : NodeId) : h.downstream k = g.downstream k
  sort_eq (d : Direction) : h.sort d = g.sort d

theorem Node.mirrors_widen {φ : Flavour} {ω : Type} (v : Node φ ω) : v.Mirrors v.widen where
  weight_eq := rfl
  membership_eq := rfl
  opposites_eq d := by
    rw [ports_widen, List.map_map]
    rfl

theorem Graph.mirrors_widen {φ : Flavour} {ω : Type} (g : Graph (Node φ ω)) :
    g.Mirrors g.widen where
  id_eq := rfl
  next_eq := rfl
  ids_eq := g.ids_widen
  vertices k := by
    rw [find?_widen]
    cases g.find? k with
    | none => exact .none
    | some v => exact .some v.mirrors_widen
  opposites_eq := opposites_widen
  neighbours_eq := neighbours_widen
  isConnected_eq := isConnected_widen
  top_eq := top_widen
  bottom_eq := bottom_widen
  upstream_eq := neighbours_widen .incoming
  downstream_eq := neighbours_widen .outgoing
  sort_eq := sort_widen

namespace Operation

/-- Both sides look the same, and will answer alike. -/
structure Matched (σ : Type) {ω : Type} (x : Sides ω) : Prop where
  next_eq : x.2.next = x.1.next
  graphs : List.Forall₂ Graph.Mirrors x.1.graphs x.2.graphs
  orphans : List.Forall₂ Node.Mirrors x.1.parts.stash x.2.parts.stash
  answers (op : Operation σ ω) (h : op.vain (op.run x.1).2 = false) :
    Concur x.1 op (op.run x.1).2 (op.run x.2).2

/-- Whatever is done with single ports, and replayed with multiple ports as far as single ports
accept it, both sides look the same at any time, and answer alike. -/
theorem sides_matched {σ ω : Type} (ops : List (Operation σ ω)) : Matched σ (sides ops) := by
  obtain ⟨hsound, hwiden⟩ := sides_eq ops
  generalize sides ops = x at hsound hwiden
  obtain ⟨w, x⟩ := x
  change x = w.widen at hwiden
  subst hwiden
  refine ⟨rfl, ?_, ?_, fun op h => (fits_run hsound h).2⟩
  · exact List.forall₂_map_right_iff.mpr (List.forall₂_same.mpr fun g _ => g.mirrors_widen)
  · exact List.forall₂_map_right_iff.mpr (List.forall₂_same.mpr fun v _ => v.mirrors_widen)

/-- An output is connected, and is to be disconnected from an input of a vertex that does not exist.
With single ports the answer is that it is connected elsewhere, with multiple ports that there is no
such vertex. -/
theorem sides_differ_at_unknown : ¬∀ (ops : List (Operation Unit Unit)) (op : Operation Unit Unit),
    op.vain (op.run (sides ops).1).2 = false →
      (op.run (sides ops).2).2 = (op.run (sides ops).1).2 ∨
        ∃ near far, (op.run (sides ops).1).2 =
            .disconnected (.error (.inconsistentConnection near far)) ∧
          (op.run (sides ops).2).2 = .disconnected (.ok false) := by
  intro h
  let output : Slot := ⟨.first, 0⟩
  let absent : Slot := ⟨NodeId.first.next.next, 0⟩
  have hanswers := h
    [.make () 0 1, .make () 1 0, .insert 0 0, .insert 0 0,
      .connect 0 .outgoing output ⟨NodeId.first.next, 0⟩]
    (.disconnect 0 .outgoing output absent) rfl
  rcases hanswers with heq | ⟨_, _, _, hmulti⟩
  · cases heq
  · cases hmulti

end Operation

end PortGraph
