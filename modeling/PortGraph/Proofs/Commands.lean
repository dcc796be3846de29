import Mathlib.Logic.Relation
import PortGraph.Proofs.Runs

/-!
# Commands are runs

Whatever command a workspace is given, it goes through the steps of a run (`Run.command`): commands
that are refused change nothing, the edits of a vertex are a function that a revision calls, and a
chain is made by inserting and linking in turn. So commands keep graphs sound
(`Run.sound_commands`).
-/

namespace PortGraph

open PortGraph.Graph

/-! ## What a called function is asked for -/

namespace Graph

variable {φ : Flavour} {ν : Type} [Vertex φ ν]

/-- What a revision leaves of the graph does not depend on what its function answers. -/
theorem modify_congr {ρ σ : Type} {f : ν → Journaled (ν × ρ)} {f' : ν → Journaled (ν × σ)}
    (h : ∀ v, (f v).val.1 = (f' v).val.1) (g : Graph ν) (id : NodeId) :
    (g.modify id f).val.1 = (g.modify id f').val.1 := by
  unfold modify
  cases g.find? id with
  | none => rfl
  | some v =>
    change (g.repair id _ _ (f v).val.1).val = (g.repair id _ _ (f' v).val.1).val
    rw [h v]

/-- Functions that revise vertices in the same way, with states that stay related, leave the same
graph and related states. -/
theorem modifyEach_simulation {σ τ : Type} {R : σ → τ → Prop}
    {f : σ → NodeId → ν → Journaled (ν × σ)} {f' : τ → NodeId → ν → Journaled (ν × τ)}
    (h : ∀ x y id v, R x y →
      (f x id v).val.1 = (f' y id v).val.1 ∧ R (f x id v).val.2 (f' y id v).val.2)
    (g : Graph ν) {x : σ} {y : τ} (hxy : R x y) :
    (g.modifyEach f x).val.1 = (g.modifyEach f' y).val.1 ∧
      R (g.modifyEach f x).val.2 (g.modifyEach f' y).val.2 := by
  rw [val_modifyEach, val_modifyEach]
  generalize g.ids = ks
  induction ks generalizing g x y with
  | nil => exact ⟨rfl, hxy⟩
  | cons id rest ih =>
    rw [List.foldl_cons, List.foldl_cons]
    cases hv : g.find? id with
    | none =>
      rw [revisedNext_of_absent hv, revisedNext_of_absent hv]
      exact ih g hxy
    | some v =>
      have hgraph : (g.modify id (f x id)).val.1 = (g.modify id (f' y id)).val.1 :=
        modify_congr (fun v => (h x y id v hxy).1) g id
      rw [revisedNext_of_stored hv, revisedNext_of_stored hv, hgraph]
      exact ih _ (h x y id v hxy).2

omit [Vertex φ ν] in
/-- Which vertices are rejected does not depend on the state that the questions pass on, if the
answers do not. -/
theorem rejected_congr {σ τ : Type} {keep : NodeId → ν → StateM σ Bool}
    {keep' : NodeId → ν → StateM τ Bool}
    (h : ∀ id v s t, ((keep id v).run s).1 = ((keep' id v).run t).1) (g : Graph ν) (s : σ) (t : τ) :
    ((g.rejected keep).run s).1 = ((g.rejected keep').run t).1 := by
  let doom (e : NodeId × ν) : StateM σ Bool := do return !(← keep e.1 e.2)
  let doom' (e : NodeId × ν) : StateM τ Bool := do return !(← keep' e.1 e.2)
  have hfilter : ∀ (es acc : List (NodeId × ν)) (s : σ) (t : τ),
      ((es.filterAuxM doom acc).run s).1 = ((es.filterAuxM doom' acc).run t).1 := by
    intro es
    induction es with
    | nil => exact fun _ _ _ => rfl
    | cons e rest ih =>
      intro acc s t
      have hanswer : ((doom e).run s).1 = ((doom' e).run t).1 := congrArg (!·) (h e.1 e.2 s t)
      change ((rest.filterAuxM doom (cond ((doom e).run s).1 (e :: acc) acc)).run _).1 =
        ((rest.filterAuxM doom' (cond ((doom' e).run t).1 (e :: acc) acc)).run _).1
      rw [hanswer]
      exact ih _ _ _
  exact congrArg (fun es => es.reverse.map Prod.fst) (hfilter g.vertices.entries [] s t)

/-- So it is with the vertices that are left. -/
theorem retain_congr {σ τ : Type} {keep : NodeId → ν → StateM σ Bool}
    {keep' : NodeId → ν → StateM τ Bool}
    (h : ∀ id v s t, ((keep id v).run s).1 = ((keep' id v).run t).1) (g : Graph ν) (s : σ) (t : τ) :
    (g.retain keep s).val.1 = (g.retain keep' t).val.1 := by
  rw [val_retain, val_retain, rejected_congr h g s t]

end Graph

/-! ## Single commands -/

namespace Run

variable {φ : Flavour} {ν : Type} [Workpiece φ ν] {w : Workspace φ ν}

/-- A command on a graph is a run if it is where there is such a graph. -/
theorem withGraph {i : Nat} {f : Graph ν → Journaled (Workspace.Outcome φ ν)}
    (h : ∀ g, w.graphs[i]? = some g → Run w (f g).val.1) : Run w (w.withGraph i f).val.1 := by
  unfold Workspace.withGraph
  cases hg : w.graphs[i]? with
  | none => exact .refl w
  | some g => exact h g hg

/-- A command on two graphs is a run if it is where there are two such graphs. -/
theorem withDistinct {i j : Nat} {f : Graph ν → Graph ν → Journaled (Workspace.Outcome φ ν)}
    (h : ∀ g g', w.graphs[i]? = some g → w.graphs[j]? = some g' → i ≠ j → Run w (f g g').val.1) :
    Run w (w.withDistinct i j f).val.1 := by
  refine withGraph fun g hg => withGraph fun g' hg' => ?_
  by_cases hij : i = j
  · rw [if_pos hij]
    exact .refl w
  · rw [if_neg hij]
    exact h g g' hg hg' hij

/-- A command on a loose vertex is a run if it is for every vertex. -/
theorem withStash {entry : Nat} {f : ν → Journaled (Workspace.Outcome φ ν)}
    (h : ∀ v, Run w (f v).val.1) : Run w (w.withStash entry f).val.1 := by
  unfold Workspace.withStash
  cases w.parts.stash[entry]? with
  | none => exact .refl w
  | some v => exact h v

/-- A command on a vertex is a run if it is for every identifier. -/
theorem withId {id : Option NodeId} {f : NodeId → Journaled (Workspace.Outcome φ ν)}
    (h : ∀ id, Run w (f id).val.1) : Run w (w.withId id f).val.1 := by
  cases id with
  | none => exact .refl w
  | some id => exact h id

/-- Edits that are refused beforehand change nothing. -/
theorem withSeats {edits : List Edit} {f : Journaled (Workspace.Outcome φ ν)}
    (h : Run w f.val.1) : Run w (w.withSeats edits f).val.1 := by
  unfold Workspace.withSeats
  cases edits.findSome? w.seatFault? with
  | none => exact h
  | some fault => exact .refl w

/-- Any number of alterations of one graph are a run. -/
theorem alter_many {i : Nat} {g h : Graph ν} (hg : w.graphs[i]? = some g)
    (hgh : Relation.ReflTransGen Alteration g h) : Run w (w.setGraph i h) := by
  induction hgh with
  | refl =>
    rw [Workspace.setGraph_self hg]
    exact .refl w
  | @tail h k _ hstep ih =>
    have hlt : i < w.graphs.length := (List.getElem?_eq_some_iff.mp hg).1
    have hslot : (w.setGraph i h).graphs[i]? = some h := List.getElem?_set_self hlt
    have hrun := ih.alter hslot hstep
    unfold Workspace.setGraph at hrun ⊢
    rw [List.set_set] at hrun
    exact hrun

/-- A chain is made by inserting and linking in turn. -/
theorem alterations_extendChain (b : Blueprint) (count : Nat) (g : Graph ν) (made : List NodeId)
    (k : Nat) : Relation.ReflTransGen Alteration g (Change.extendChain b g made k count).val.1 := by
  induction count generalizing g made k with
  | zero => exact .refl
  | succ count ih =>
    unfold Change.extendChain
    have hinsert := Alteration.insert g (Workpiece.make { b with name := b.name ++ toString k })
    revert hinsert
    rw [Journaled.val_bind]
    generalize (g.insert (Workpiece.make { b with name := b.name ++ toString k })).val = inserted
    obtain ⟨g₁, e | id⟩ := inserted
    · intro hinsert
      exact .single hinsert
    · intro hinsert
      cases made.getLast? with
      | none => exact .head hinsert (ih g₁ [id] (k + 1))
      | some last =>
        have hlink := Alteration.link g₁ ⟨⟨last, 0⟩, ⟨id, 0⟩⟩
        revert hlink
        change Alteration g₁ (g₁.link ⟨⟨last, 0⟩, ⟨id, 0⟩⟩).val.1 → _
        rw [Journaled.val_bind]
        generalize (g₁.link ⟨⟨last, 0⟩, ⟨id, 0⟩⟩).val = linked
        obtain ⟨g₂, e | made⟩ := linked
        · intro hlink
          exact .head hinsert (.single hlink)
        · intro hlink
          exact .head hinsert (.head hlink (ih g₂ _ (k + 1)))

/-- What is asked of a single graph is made of its alterations. -/
theorem change {i : Nat} {g : Graph ν} (hg : w.graphs[i]? = some g) (c : Change) :
    Run w (w.setGraph i (c.apply g).val.1) := by
  cases c with
  | insert b => exact (Run.refl w).alter hg (.insert g (Workpiece.make b))
  | chain b count => exact alter_many hg (alterations_extendChain b count g [] 0)
  | connect d p q => exact (Run.refl w).alter hg (.connect g d p q)
  | link l => exact (Run.refl w).alter hg (.link g l)
  | disconnect d p q => exact (Run.refl w).alter hg (.disconnect g d p q)
  | disconnectAll d p => exact (Run.refl w).alter hg (.disconnectAll g d p)
  | erase id => exact (Run.refl w).alter hg (.erase g id)
  | clear => exact (Run.refl w).alter hg (.clear g)
  | retain labels numbers =>
    -- the list of the vertices asked about is kept, but has no part in the answers
    let kept (id : NodeId) (v : ν) : Bool :=
      labels.contains (Workpiece.label v) || numbers.contains id.val
    let keep (id : NodeId) (v : ν) : StateM (Workspace φ ν) Bool := return kept id v
    let keepListing (id : NodeId) (v : ν) : StateM (List NodeId) Bool := do
      modifyThe (List NodeId) (· ++ [id])
      return kept id v
    have hrun : Run w ((g.retain keep w).val.2.setGraph i (g.retain keep w).val.1) :=
      (Run.refl w).retain hg fun y id v => .refl y
    have hkeep : ∀ y id v, y = w → ((keep id v).run y).2 = w := fun y id v hy => hy
    have hstate : (g.retain keep w).val.2 = w := rejected_invariant hkeep g rfl
    have hanswer (id : NodeId) (v : ν) (y : Workspace φ ν) (seen : List NodeId) :
        ((keep id v).run y).1 = ((keepListing id v).run seen).1 := rfl
    have hsame : (g.retain keep w).val.1 = (g.retain keepListing []).val.1 :=
      retain_congr hanswer g w []
    rw [hstate, hsame] at hrun
    exact hrun

/-- A loose vertex is taken out and inserted. -/
theorem insertStash (i entry : Nat) : Run w (w.insertStash i entry).val.1 := by
  refine withGraph fun g hg => withStash fun v => ?_
  have hrest : Run w (w.removeStash entry) := (Run.refl w).rearrange _
  exact hrest.alter hg (.insert g v)

/-- A copy of a vertex is inserted. -/
theorem insertCopy (i : Nat) (v : ν) : Run w (w.insertCopy i v).val.1 :=
  withGraph fun g hg => (Run.refl w).alter hg (.insertCopy g v)

/-- A vertex that is released becomes a loose part. -/
theorem release (i : Nat) (id : NodeId) : Run w (w.release i id).val.1 := by
  apply withGraph
  intro g hg
  have hrelease := (Run.refl w).alter hg (.release g id)
  revert hrelease
  rw [Journaled.val_bind]
  generalize (g.release id).val = released
  obtain ⟨h, _ | v⟩ := released
  · exact fun hrelease => hrelease
  · exact fun hrelease => hrelease.rearrange _

/-- The edits of a vertex are the function that its revision calls. -/
theorem editVertex (i : Nat) (id : Option NodeId) (edits : List Edit) :
    Run w (w.modify i id edits).val.1 := by
  refine withSeats (withId fun id => withGraph fun g hg => ?_)
  -- the loose parts are what the edits leave of the workspace
  let f (v : ν) : Journaled (ν × LooseParts φ ν × List EditReply) := do
    let edited ← Edit.applyAll w.seat ⟨v, w.parts⟩ edits
    return (edited.1.vertex, edited.1.parts, edited.2)
  let f' (v : ν) : Journaled (ν × Workspace φ ν) :=
    (fun edited => (edited.1, { w with parts := edited.2.1 })) <$> f v
  have hrun : Run w (w.resume i (g.modify id f').val) :=
    (Run.refl w).modify hg id fun v => (Run.refl w).rearrange _
  unfold Graph.modify at hrun ⊢
  cases hv : g.find? id with
  | none =>
    rw [hv] at hrun
    exact hrun
  | some v =>
    rw [hv] at hrun
    exact hrun

/-- So are the edits of all vertices of a graph, one after the other. -/
theorem editVertices (i : Nat) (edits : List Edit) : Run w (w.modifyEach i edits).val.1 := by
  refine withSeats (withGraph fun g hg => ?_)
  let edit (v : ν) (parts : LooseParts φ ν) : Journaled (Bench φ ν × List EditReply) :=
    Edit.applyAll w.seat ⟨v, parts⟩ edits
  let f (x : LooseParts φ ν × List (NodeId × List EditReply)) (id : NodeId) (v : ν) :
      Journaled (ν × LooseParts φ ν × List (NodeId × List EditReply)) := do
    let edited ← edit v x.1
    return (edited.1.vertex, edited.1.parts, x.2 ++ [(id, edited.2)])
  let f' (y : Workspace φ ν) (_ : NodeId) (v : ν) : Journaled (ν × Workspace φ ν) := do
    let edited ← edit v y.parts
    return (edited.1.vertex, { y with parts := edited.1.parts })
  have hrun : Run w ((g.modifyEach f' w).val.2.setGraph i (g.modifyEach f' w).val.1) :=
    (Run.refl w).modifyEach hg fun y id v => (Run.refl y).rearrange _
  -- the states are the workspace with the loose parts, and the loose parts with what was answered
  let R (x : LooseParts φ ν × List (NodeId × List EditReply)) (y : Workspace φ ν) : Prop :=
    y = { w with parts := x.1 }
  have hstep : ∀ x y id v, R x y →
      (f x id v).val.1 = (f' y id v).val.1 ∧ R (f x id v).val.2 (f' y id v).val.2 := by
    rintro x y id v rfl
    exact ⟨rfl, rfl⟩
  obtain ⟨hgraph, hstate⟩ := modifyEach_simulation hstep g (x := (w.parts, [])) (y := w) rfl
  rw [← hgraph, hstate] at hrun
  exact hrun

omit [Workpiece φ ν] in
/-- Destroying the newest graph leaves its identifier given up. -/
theorem destroy_added [Vertex φ ν] {x : Workspace φ ν} {g : Graph ν} (h : Run w (x.addGraph g).1) :
    Run w x.skipGraph := by
  have hgraphs : (x.graphs ++ [g]).eraseIdx x.graphs.length = x.graphs := by
    rw [List.eraseIdx_append_of_length_le (Nat.le_refl _), Nat.sub_self]
    exact List.append_nil _
  have hskip : ({ (x.addGraph g).1 with
      graphs := (x.graphs ++ [g]).eraseIdx x.graphs.length } : Workspace φ ν) = x.skipGraph :=
    congrArg (fun graphs => ({ x.skipGraph with graphs } : Workspace φ ν)) hgraphs
  rw [← hskip]
  exact h.destroy x.graphs.length

/-- Vertices are moved into a new graph, which is destroyed if they cannot be moved. -/
theorem releaseSet (i : Nat) (ids : List NodeId) : Run w (w.releaseSet i ids).val.1 := by
  apply withGraph
  intro g hg
  have hlt : i < w.graphs.length := (List.getElem?_eq_some_iff.mp hg).1
  have hold : (w.graphs ++ [Graph.empty w.next])[i]? = some g := by
    rw [List.getElem?_append_left hlt, hg]
  have hnew : (w.graphs ++ [Graph.empty w.next])[w.graphs.length]? = some (.empty w.next) := by
    rw [List.getElem?_append_right (Nat.le_refl _), Nat.sub_self]
    rfl
  have hmoved := (Run.refl w).new.releaseInto hold hnew (Nat.ne_of_lt hlt) ids
  have hrelease : g.releaseSet ids w.next = g.releaseInto ids (.empty w.next) := rfl
  rw [Journaled.val_bind, hrelease]
  generalize (g.releaseInto ids (.empty w.next)).val = t at hmoved ⊢
  have hgraphs : ((w.graphs ++ [Graph.empty w.next]).set i t.source).set w.graphs.length t.dest =
      w.graphs.set i t.source ++ [t.dest] := by
    rw [List.set_append_left i _ hlt, List.set_append_right _ _ (by simp), List.length_set,
      Nat.sub_self]
    rfl
  have hmade : ((w.addGraph (.empty w.next)).1.settleTransfer i w.graphs.length t).1 =
      ((w.setGraph i t.source).addGraph t.dest).1 :=
    congrArg (fun graphs => ({ w.skipGraph with graphs } : Workspace φ ν)) hgraphs
  rw [hmade] at hmoved
  cases t.answer with
  | ok names => exact hmoved
  | error e => exact hmoved.destroy_added

/-- The orphans of a graph that is taken apart become loose parts. -/
theorem dissolveInto (i : Nat) (moves : List Move) : Run w (w.dissolve i moves).val.1 := by
  apply withGraph
  intro g _
  have hpush (orphans : List (NodeId × ν)) {x : Workspace φ ν} (hx : Run w x) :
      Run w (orphans.foldl (fun w orphan => w.push orphan.2) x) := by
    induction orphans generalizing x with
    | nil => exact hx
    | cons orphan rest ih => exact ih (hx.rearrange _)
  exact hpush _ ((Run.refl w).dissolve i)

/-! ## All commands -/

/-- Every command goes through the steps of a run. -/
theorem command (w : Workspace φ ν) (c : Command) : Run w (w.run c).val.1 := by
  cases c with
  | query i q => exact withGraph fun g _ => .refl w
  | change i c => exact withGraph fun g hg => change hg c
  | new => exact (Run.refl w).new
  | clone i => exact withGraph fun g hg => (Run.refl w).clone hg
  | releaseSet i ids => exact releaseSet i ids
  | insertCopy i source id =>
    refine withGraph fun h _ => withId fun id => ?_
    cases h.get id with
    | error e => exact .refl w
    | ok v => exact insertCopy i v
  | stash b => exact (Run.refl w).rearrange _
  | insertStash i entry => exact insertStash i entry
  | copyStash i entry => exact withStash (insertCopy i)
  | dropStash entry => exact withStash fun v => (Run.refl w).rearrange _
  | editStash entry edits =>
    exact withStash fun v => withSeats ((Run.refl w).rearrange _)
  | release i id => exact release i id
  | modify i id edits => exact editVertex i id edits
  | modifyEach i edits => exact editVertices i edits
  | swapVertices i id j id' =>
    exact withDistinct fun g h hg hh hij => (Run.refl w).swapVertices hg hh hij id id'
  | copyInto source dest =>
    exact withDistinct fun g h hg hh hne => (Run.refl w).copyInto hg hh hne
  | moveInto source dest =>
    exact withDistinct fun g h hg hh hne => (Run.refl w).moveInto hg hh hne
  | releaseInto source dest ids =>
    exact withDistinct fun g h hg hh hne => (Run.refl w).releaseInto hg hh hne ids
  | compareGraphs i j => exact withDistinct fun _ _ _ _ _ => .refl w
  | compareVertices i id j id' => exact withGraph fun _ _ => withGraph fun _ _ => .refl w
  | compareBindings i id j id' => exact withGraph fun _ _ => withGraph fun _ _ => .refl w
  | dissolve i moves => exact dissolveInto i moves

/-- So do any number of commands. -/
theorem commands (w : Workspace φ ν) (cs : List Command) :
    Run w (cs.foldl (fun w c => (w.run c).val.1) w) := by
  induction cs generalizing w with
  | nil => exact .refl w
  | cons c rest ih => exact (command w c).trans (ih _)

/-- Commands keep all graphs sound. -/
theorem sound_commands [SteadyVertex φ ν] (hw : w.Sound) (cs : List Command) :
    (cs.foldl (fun w c => (w.run c).val.1) w).Sound :=
  (commands w cs).sound hw

end Run

end PortGraph
