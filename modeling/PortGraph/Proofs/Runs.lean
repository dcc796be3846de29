import PortGraph.Proofs.Remnants
import PortGraph.Workspace.Basic

/-!
# Runs keep graphs consistent

A run works on any number of graphs, with loose vertices and loose ports around them. One step of it
alters one graph, makes a new one, or moves or copies vertices between two. The loose parts can
change into anything at any time, so that any vertex can be inserted, with whatever connections and
membership it carries.

Some operations call a function: those that revise vertices, and the one that asks which to keep.
Such a function can do with the vertex what it likes, and with the rest of the workspace whatever a
run can do, so that revisions can be nested. What no operation takes from a graph is a
`Graph.Invariant`, and no run takes it from its graphs (`Run.reaches`). Being consistent and bounded
is one (`Run.sound`); a run that begins with empty graphs therefore comes to consistent graphs only.
-/

namespace PortGraph

open PortGraph.Graph

variable {φ : Flavour} {ν : Type} [Vertex φ ν]

/-! ## Steps -/

/-- What is done with one graph by itself. -/
inductive Graph.Alteration : Graph ν → Graph ν → Prop
  | insert (g : Graph ν) (v : ν) : Alteration g (g.insert v).val.1
  | insertCopy (g : Graph ν) (v : ν) : Alteration g (g.insertCopy v).val.1
  | connect (g : Graph ν) (d : Direction) (port opposite : Slot) :
    Alteration g (g.connect d port opposite).val.1
  | link (g : Graph ν) (l : Link) : Alteration g (g.link l).val.1
  | disconnect (g : Graph ν) (d : Direction) (port opposite : Slot) :
    Alteration g (g.disconnect d port opposite).val.1
  | disconnectAll (g : Graph ν) (d : Direction) (port : Slot) :
    Alteration g (g.disconnectAll d port).val.1
  | erase (g : Graph ν) (id : NodeId) : Alteration g (g.erase id).val.1
  | release (g : Graph ν) (id : NodeId) : Alteration g (g.release id).val.1
  | clear (g : Graph ν) : Alteration g g.clear.val

/-- The workspace after a revision of a vertex in a slot: the one that the function left, or the one
from before if the function was not called. -/
def Workspace.resume (w : Workspace φ ν) (slot : Nat) :
    Graph ν × Except GraphError (Workspace φ ν) → Workspace φ ν
  | (g, .ok x) => x.setGraph slot g
  | (g, .error _) => w.setGraph slot g

/-- The workspaces that a run can come to.

While a function is called the graph at hand is lent out: what the function does to its slot is
overwritten in the end. -/
inductive Run : Workspace φ ν → Workspace φ ν → Prop
  | refl (w : Workspace φ ν) : Run w w
  | alter {w x : Workspace φ ν} {i : Nat} {g h : Graph ν} (hwx : Run w x)
    (hg : x.graphs[i]? = some g) (hgh : Alteration g h) : Run w (x.setGraph i h)
  | rearrange {w x : Workspace φ ν} (hwx : Run w x) (parts : LooseParts φ ν) :
    Run w { x with parts }
  | new {w x : Workspace φ ν} (hwx : Run w x) : Run w (x.addGraph (.empty x.next)).1
  | destroy {w x : Workspace φ ν} (hwx : Run w x) (i : Nat) :
    Run w { x with graphs := x.graphs.eraseIdx i }
  | retain {w x : Workspace φ ν} {i : Nat} {g : Graph ν}
    {keep : NodeId → ν → StateM (Workspace φ ν) Bool} (hwx : Run w x)
    (hg : x.graphs[i]? = some g) (hkeep : ∀ y id v, Run y ((keep id v).run y).2) :
    Run w ((g.retain keep x).val.2.setGraph i (g.retain keep x).val.1)
  | modify {w x : Workspace φ ν} {i : Nat} {g : Graph ν}
    {f : ν → Journaled (ν × Workspace φ ν)} (hwx : Run w x) (hg : x.graphs[i]? = some g)
    (id : NodeId) (hf : ∀ v, Run x (f v).val.2) : Run w (x.resume i (g.modify id f).val)
  | modifyEach {w x : Workspace φ ν} {i : Nat} {g : Graph ν}
    {f : Workspace φ ν → NodeId → ν → Journaled (ν × Workspace φ ν)} (hwx : Run w x)
    (hg : x.graphs[i]? = some g) (hf : ∀ y id v, Run y (f y id v).val.2) :
    Run w ((g.modifyEach f x).val.2.setGraph i (g.modifyEach f x).val.1)
  | clone {w x : Workspace φ ν} {i : Nat} {g : Graph ν} (hwx : Run w x)
    (hg : x.graphs[i]? = some g) : Run w (x.addGraph (g.clone x.next).val).1
  | copyInto {w x : Workspace φ ν} {source dest : Nat} {g h : Graph ν} (hwx : Run w x)
    (hg : x.graphs[source]? = some g) (hh : x.graphs[dest]? = some h) (hne : source ≠ dest) :
    Run w (x.setGraph dest (g.copyInto h).val.1)
  | moveInto {w x : Workspace φ ν} {source dest : Nat} {g h : Graph ν} (hwx : Run w x)
    (hg : x.graphs[source]? = some g) (hh : x.graphs[dest]? = some h) (hne : source ≠ dest) :
    Run w (x.settleTransfer source dest (g.moveInto h).val).1
  | releaseInto {w x : Workspace φ ν} {source dest : Nat} {g h : Graph ν} (hwx : Run w x)
    (hg : x.graphs[source]? = some g) (hh : x.graphs[dest]? = some h) (hne : source ≠ dest)
    (subset : List NodeId) : Run w (x.settleTransfer source dest (g.releaseInto subset h).val).1
  /-- A graph is taken apart, and the slot filled with a new one. -/
  | dissolve {w x : Workspace φ ν} (hwx : Run w x) (i : Nat) :
    Run w (x.setGraph i (.empty x.next)).skipGraph

/-! ## Sound graphs -/

/-- What every graph of a run satisfies. -/
structure Graph.Sound (g : Graph ν) : Prop where
  consistent : g.Consistent
  bounded : g.Bounded

namespace Graph

omit [Vertex φ ν] in
/-- What a question about a vertex preserves, the questions about all vertices preserve. -/
theorem rejected_invariant {σ : Type} {P : σ → Prop} {keep : NodeId → ν → StateM σ Bool}
    (hkeep : ∀ s id v, P s → P ((keep id v).run s).2) (g : Graph ν) {s : σ} (hs : P s) :
    P ((g.rejected keep).run s).2 := by
  let doom (e : NodeId × ν) : StateM σ Bool := do return !(← keep e.1 e.2)
  have hfilter : ∀ (es acc : List (NodeId × ν)) (s : σ), P s →
      P ((es.filterAuxM doom acc).run s).2 := by
    intro es
    induction es with
    | nil => exact fun _ _ hs => hs
    | cons e rest ih => exact fun acc s hs => ih _ _ (hkeep s e.1 e.2 hs)
  exact hfilter g.vertices.entries [] s hs

/-- A graph without vertices is sound. -/
theorem Sound.of_vertices_eq_empty {g : Graph ν} (h : g.vertices = .empty) : g.Sound where
  consistent := consistent_of_vertices_eq_empty h
  bounded := bounded_of_vertices_eq_empty h

namespace Sound

variable {g h : Graph ν}

/-- A graph from which vertices went away is sound. -/
theorem excision (hg : g.Sound) {gone : NodeId → Bool} (he : Excision g h gone) : h.Sound :=
  ⟨he.consistent hg.consistent, he.bounded hg.bounded⟩

/-- A graph from which connections went away is sound. -/
theorem removal (hg : g.Sound) {ls : List Link} (hr : Removal g h ls) : h.Sound :=
  ⟨hr.consistent hg.consistent, hr.rewired.bounded hg.bounded⟩

theorem connect [LawfulPorts φ ν] (hg : g.Sound) (d : Direction) (p q : Slot) :
    (g.connect d p q).val.1.Sound :=
  ⟨hg.consistent.connect d p q, (rewired_connect g d p q).bounded hg.bounded⟩

theorem insert [LawfulPorts φ ν] [PassiveVertex φ ν] (hg : g.Sound) (v : ν) :
    (g.insert v).val.1.Sound :=
  ⟨hg.consistent.insert v, hg.bounded.insert v⟩

/-- Every alteration of a sound graph leaves it sound. -/
theorem alteration [LawfulPorts φ ν] [PassiveVertex φ ν] (hg : g.Sound)
    (hgh : Alteration g h) : h.Sound := by
  cases hgh with
  | insert v => exact hg.insert v
  | insertCopy v => exact hg.insert (Vertex.copy v)
  | connect d p q => exact hg.connect d p q
  | link l => exact hg.connect .outgoing l.output l.input
  | disconnect d p q => exact hg.removal (Removal.disconnect hg.consistent d p q)
  | disconnectAll d p => exact hg.removal (g.removal_disconnectAll d p)
  | erase id => exact hg.excision (excision_erase hg.consistent id)
  | release id =>
    rw [val_release g id hg.consistent]
    exact hg.excision (excision_erase hg.consistent id)
  | clear => exact .of_vertices_eq_empty rfl

theorem modify {ρ : Type} [LawfulPorts φ ν] (hg : g.Sound) (id : NodeId)
    (f : ν → Journaled (ν × ρ)) : (g.modify id f).val.1.Sound :=
  ⟨hg.consistent.modify id f, hg.bounded.modify id f⟩

theorem clone [LawfulPorts φ ν] [PassiveVertex φ ν] (hg : g.Sound) (id : GraphId) :
    (g.clone id).val.Sound :=
  ⟨g.consistent_clone id, hg.bounded.clone id⟩

theorem copyInto [LawfulPorts φ ν] [PassiveVertex φ ν] (hh : h.Sound) (g : Graph ν) :
    (g.copyInto h).val.1.Sound :=
  ⟨hh.consistent.copyInto g, hh.bounded.copyInto g⟩

/-- A graph that took vertices in with the connections among them is sound. -/
theorem relink [SteadyVertex φ ν] {source dest : Graph ν} {ids : List NodeId} {names : Renaming}
    (hen : Enrolled dest (source.movers ids) h names) (hsource : source.Consistent)
    (hdest : dest.Sound) : (h.relink names).Sound where
  consistent := hen.consistent_relink hsource hdest.consistent hdest.bounded
    (source.balanced_of_steady names dest.id)
  bounded := (h.rewired_relink names).bounded hen.bounded

/-- Moving all vertices leaves both graphs sound. -/
theorem moveInto [SteadyVertex φ ν] (hg : g.Sound) (hh : h.Sound) :
    (g.moveInto h).val.source.Sound ∧ (g.moveInto h).val.dest.Sound := by
  obtain ⟨dest, names, hval, hen⟩ := moveInto_eq g hh.bounded
  rw [hval]
  exact ⟨.of_vertices_eq_empty rfl, relink hen hg.consistent hh⟩

/-- Moving some vertices leaves both graphs sound. -/
theorem releaseInto [SteadyVertex φ ν] (hg : g.Sound) (hh : h.Sound) (subset : List NodeId) :
    (g.releaseInto subset h).val.source.Sound ∧ (g.releaseInto subset h).val.dest.Sound := by
  by_cases hsub : ∀ k ∈ subset, g.contains k = true
  · obtain ⟨dest, names, hval, hen, _⟩ := releaseInto_eq hg.consistent hh.bounded hsub
    rw [hval]
    exact ⟨hg.excision (excision_severed hg.consistent hsub),
      relink hen (hg.consistent.severed subset) hh⟩
  · obtain ⟨k, _, _, _, hval⟩ := releaseInto_of_missing h hsub
    rw [hval]
    exact ⟨hg, hh⟩

end Sound

end Graph

/-! ## Invariants of runs -/

/-- What no operation takes from a graph. It may depend on the identifier for the next graph of the
workspace, which is given to graphs that are made. -/
structure Graph.Invariant (P : GraphId → Graph ν → Prop) : Prop where
  mono {n m : GraphId} {g : Graph ν} (hnm : n.val ≤ m.val) (hg : P n g) : P m g
  empty (n : GraphId) : P n.next (.empty n)
  alteration {n : GraphId} {g h : Graph ν} (hg : P n g) (hgh : Alteration g h) : P n h
  retain {σ : Type} {n : GraphId} {g : Graph ν} (hg : P n g) (keep : NodeId → ν → StateM σ Bool)
    (s : σ) : P n (g.retain keep s).val.1
  modify {ρ : Type} {n : GraphId} {g : Graph ν} (hg : P n g) (id : NodeId)
    (f : ν → Journaled (ν × ρ)) : P n (g.modify id f).val.1
  clone {n : GraphId} {g : Graph ν} (hg : P n g) : P n.next (g.clone n).val
  copyInto {n : GraphId} {g h : Graph ν} (hg : P n g) (hh : P n h) : P n (g.copyInto h).val.1
  moveInto {n : GraphId} {g h : Graph ν} (hg : P n g) (hh : P n h) :
    P n (g.moveInto h).val.source ∧ P n (g.moveInto h).val.dest
  releaseInto {n : GraphId} {g h : Graph ν} (hg : P n g) (hh : P n h) (subset : List NodeId) :
    P n (g.releaseInto subset h).val.source ∧ P n (g.releaseInto subset h).val.dest

/-- Two invariants are one. -/
theorem Graph.Invariant.and {P Q : GraphId → Graph ν → Prop} (hP : Graph.Invariant P)
    (hQ : Graph.Invariant Q) : Graph.Invariant fun n g => P n g ∧ Q n g where
  mono hnm hg := ⟨hP.mono hnm hg.1, hQ.mono hnm hg.2⟩
  empty n := ⟨hP.empty n, hQ.empty n⟩
  alteration hg hgh := ⟨hP.alteration hg.1 hgh, hQ.alteration hg.2 hgh⟩
  retain hg keep s := ⟨hP.retain hg.1 keep s, hQ.retain hg.2 keep s⟩
  modify hg id f := ⟨hP.modify hg.1 id f, hQ.modify hg.2 id f⟩
  clone hg := ⟨hP.clone hg.1, hQ.clone hg.2⟩
  copyInto hg hh := ⟨hP.copyInto hg.1 hh.1, hQ.copyInto hg.2 hh.2⟩
  moveInto hg hh := by
    obtain ⟨hsource, hdest⟩ := hP.moveInto hg.1 hh.1
    obtain ⟨hsource', hdest'⟩ := hQ.moveInto hg.2 hh.2
    exact ⟨⟨hsource, hsource'⟩, hdest, hdest'⟩
  releaseInto hg hh subset := by
    obtain ⟨hsource, hdest⟩ := hP.releaseInto hg.1 hh.1 subset
    obtain ⟨hsource', hdest'⟩ := hQ.releaseInto hg.2 hh.2 subset
    exact ⟨⟨hsource, hsource'⟩, hdest, hdest'⟩

/-- Soundness is an invariant of graphs of vertices that keep their ports. -/
theorem Graph.invariant_sound [SteadyVertex φ ν] :
    Graph.Invariant fun _ (g : Graph ν) => g.Sound where
  mono _ hg := hg
  empty _ := .of_vertices_eq_empty rfl
  alteration hg hgh := hg.alteration hgh
  retain hg keep s := hg.excision (excision_retain hg.consistent keep s)
  modify hg id f := hg.modify id f
  clone hg := hg.clone _
  copyInto _ hh := hh.copyInto _
  moveInto hg hh := hg.moveInto hh
  releaseInto hg hh subset := hg.releaseInto hh subset

/-- All graphs of the workspace satisfy `P`. -/
def Workspace.All (P : GraphId → Graph ν → Prop) (w : Workspace φ ν) : Prop :=
  ∀ g ∈ w.graphs, P w.next g

namespace Workspace.All

variable {P : GraphId → Graph ν → Prop} {w : Workspace φ ν}

omit [Vertex φ ν] in
theorem get (hw : w.All P) {slot : Nat} {g : Graph ν} (hg : w.graphs[slot]? = some g) :
    P w.next g :=
  hw g (List.mem_of_getElem? hg)

omit [Vertex φ ν] in
theorem setGraph (hw : w.All P) (slot : Nat) {g : Graph ν} (hg : P w.next g) :
    (w.setGraph slot g).All P :=
  forall_mem_set hw slot hg

omit [Vertex φ ν] in
theorem settleTransfer (hw : w.All P) (source dest : Nat) {t : Transfer ν}
    (ht : P w.next t.source ∧ P w.next t.dest) : (w.settleTransfer source dest t).1.All P :=
  (hw.setGraph source ht.1).setGraph dest ht.2

/-- Giving up an identifier for a graph takes nothing from the graphs that there are. -/
theorem skipGraph (hw : w.All P) (hP : Graph.Invariant P) : w.skipGraph.All P :=
  fun g hg => hP.mono (Nat.le_succ _) (hw g hg)

theorem addGraph (hw : w.All P) (hP : Graph.Invariant P) {g : Graph ν} (hg : P w.next.next g) :
    (w.addGraph g).1.All P :=
  forall_mem_concat (hw.skipGraph hP) hg

end Workspace.All

/-- All graphs of the workspace are sound. -/
def Workspace.Sound (w : Workspace φ ν) : Prop := ∀ g ∈ w.graphs, g.Sound

/-- A run that began at `w` can be at `x` as far as `P` and the identifiers for graphs, which do not
go back, are concerned. -/
structure Workspace.Reaches (P : GraphId → Graph ν → Prop) (w x : Workspace φ ν) : Prop where
  next_le : w.next.val ≤ x.next.val
  all : x.All P

namespace Workspace.Reaches

variable {P : GraphId → Graph ν → Prop} {w x y : Workspace φ ν}

omit [Vertex φ ν] in
theorem trans (hwx : w.Reaches P x) (hxy : x.All P → x.Reaches P y) : w.Reaches P y :=
  ⟨Nat.le_trans hwx.next_le (hxy hwx.all).next_le, (hxy hwx.all).all⟩

/-- A function that was called while a graph of `w` was at hand left `x`; then the graph is put
back. -/
theorem putBack (hwx : w.Reaches P x) (hP : Graph.Invariant P) (slot : Nat) {g : Graph ν}
    (hg : P w.next g) : w.Reaches P (x.setGraph slot g) :=
  ⟨hwx.next_le, hwx.all.setGraph slot (hP.mono hwx.next_le hg)⟩

/-- So it is after a revision, whether or not the function was called. -/
theorem resume_modify (hw : w.All P) (hP : Graph.Invariant P) (slot : Nat) {g : Graph ν}
    (hg : P w.next g) (id : NodeId) {f : ν → Journaled (ν × Workspace φ ν)}
    (hf : ∀ v, w.Reaches P (f v).val.2) : w.Reaches P (w.resume slot (g.modify id f).val) := by
  have hrevised := hP.modify hg id f
  unfold Graph.modify at hrevised ⊢
  cases hv : g.find? id with
  | none => exact ⟨Nat.le_refl _, hw.setGraph slot hg⟩
  | some v =>
    rw [hv] at hrevised
    exact (hf v).putBack hP slot hrevised

end Workspace.Reaches

/-! ## Runs -/

omit [Vertex φ ν] in
/-- Nothing changes when a graph is put where it is. -/
theorem Workspace.setGraph_self {w : Workspace φ ν} {slot : Nat} {g : Graph ν}
    (hg : w.graphs[slot]? = some g) : w.setGraph slot g = w := by
  obtain ⟨hlt, hget⟩ := List.getElem?_eq_some_iff.mp hg
  unfold setGraph
  rw [← hget, List.set_getElem_self]

omit [Vertex φ ν] in
/-- Graphs can be put into different slots in either order. -/
theorem Workspace.setGraph_comm (w : Workspace φ ν) {slot slot' : Nat} (hne : slot ≠ slot')
    (g h : Graph ν) :
    (w.setGraph slot g).setGraph slot' h = (w.setGraph slot' h).setGraph slot g := by
  unfold setGraph
  rw [List.set_comm _ _ hne]

namespace Run

variable {w x y : Workspace φ ν}

/-- What no operation takes from a graph, no run takes from its graphs, whatever the functions do
that it calls. -/
theorem reaches {P : GraphId → Graph ν → Prop} (hP : Graph.Invariant P) (hwx : Run w x)
    (hw : w.All P) : w.Reaches P x := by
  induction hwx with
  | refl w => exact ⟨Nat.le_refl _, hw⟩
  | alter _ hg hgh ih =>
    refine (ih hw).trans fun hx => ⟨Nat.le_refl _, hx.setGraph _ ?_⟩
    exact hP.alteration (hx.get hg) hgh
  | rearrange _ _ ih => exact ⟨(ih hw).next_le, (ih hw).all⟩
  | new _ ih =>
    exact (ih hw).trans fun hx => ⟨Nat.le_succ _, hx.addGraph hP (hP.empty _)⟩
  | destroy _ i ih =>
    exact ⟨(ih hw).next_le, fun g hg => (ih hw).all g (List.mem_of_mem_eraseIdx hg)⟩
  | @retain w x i g keep _ hg _ ih ihkeep =>
    refine (ih hw).trans fun hx => ?_
    have hasked : x.Reaches P (g.retain keep x).val.2 :=
      rejected_invariant (P := x.Reaches P) (fun _ id v hy => hy.trans (ihkeep _ id v)) g
        ⟨Nat.le_refl _, hx⟩
    exact hasked.putBack hP i (hP.retain (hx.get hg) keep x)
  | modify _ hg id _ ih ihf =>
    exact (ih hw).trans fun hx => .resume_modify hx hP _ (hx.get hg) id fun v => ihf v hx
  | @modifyEach w x i g f _ hg _ ih ihf =>
    refine (ih hw).trans fun hx => ?_
    obtain ⟨hrevised, hrest⟩ := modifyEach_invariant (Q := P x.next) (P := x.Reaches P)
      (fun _ id f hg => hP.modify hg id f) (fun _ id v hy => hy.trans (ihf _ id v)) (hx.get hg)
      ⟨Nat.le_refl _, hx⟩
    exact hrest.putBack hP i hrevised
  | clone _ hg ih =>
    exact (ih hw).trans fun hx => ⟨Nat.le_succ _, hx.addGraph hP (hP.clone (hx.get hg))⟩
  | copyInto _ hg hh _ ih =>
    refine (ih hw).trans fun hx => ⟨Nat.le_refl _, hx.setGraph _ ?_⟩
    exact hP.copyInto (hx.get hg) (hx.get hh)
  | moveInto _ hg hh _ ih =>
    refine (ih hw).trans fun hx => ⟨Nat.le_refl _, hx.settleTransfer _ _ ?_⟩
    exact hP.moveInto (hx.get hg) (hx.get hh)
  | releaseInto _ hg hh _ subset ih =>
    refine (ih hw).trans fun hx => ⟨Nat.le_refl _, hx.settleTransfer _ _ ?_⟩
    exact hP.releaseInto (hx.get hg) (hx.get hh) subset
  | dissolve _ slot ih =>
    refine (ih hw).trans fun hx => ⟨Nat.le_succ _, ?_⟩
    exact (hx.skipGraph hP).setGraph slot (hP.empty _)

/-- A run keeps all graphs sound, whatever the functions do that it calls. -/
theorem sound [SteadyVertex φ ν] (hwx : Run w x) (hw : w.Sound) : x.Sound :=
  (hwx.reaches Graph.invariant_sound hw).all

/-- A run can be continued by another one. -/
theorem trans (hwx : Run w x) (hxy : Run x y) : Run w y := by
  induction hxy with
  | refl => exact hwx
  | alter _ hg hgh ih => exact (ih hwx).alter hg hgh
  | rearrange _ parts ih => exact (ih hwx).rearrange parts
  | new _ ih => exact (ih hwx).new
  | destroy _ i ih => exact (ih hwx).destroy i
  | retain _ hg hkeep ih => exact (ih hwx).retain hg hkeep
  | modify _ hg id hf ih => exact (ih hwx).modify hg id hf
  | modifyEach _ hg hf ih => exact (ih hwx).modifyEach hg hf
  | clone _ hg ih => exact (ih hwx).clone hg
  | copyInto _ hg hh hne ih => exact (ih hwx).copyInto hg hh hne
  | moveInto _ hg hh hne ih => exact (ih hwx).moveInto hg hh hne
  | releaseInto _ hg hh hne subset ih => exact (ih hwx).releaseInto hg hh hne subset
  | dissolve _ slot ih => exact (ih hwx).dissolve slot

/-- Exchanges a vertex with one of a graph of the workspace: what the outer of two nested revisions
calls. -/
def exchange (x : Workspace φ ν) (j : Nat) (h : Graph ν) (id : NodeId) (v : ν) :
    Journaled (ν × Workspace φ ν) := do
  let (h, answer) ← h.modify id fun u => pure (v, u)
  match answer with
  | .ok u => return (u, x.setGraph j h)
  | .error _ => return (v, x)

theorem exchanged {j : Nat} {h : Graph ν} (hh : x.graphs[j]? = some h) (id : NodeId) (v : ν) :
    Run x (exchange x j h id v).val.2 := by
  have hrun : Run x (x.resume j (h.modify id fun _ => pure (v, x)).val) :=
    (Run.refl x).modify hh id fun _ => .refl x
  unfold exchange
  unfold Graph.modify at hrun ⊢
  cases hu : h.find? id with
  | none => exact .refl x
  | some u =>
    rw [hu] at hrun
    exact hrun

/-- Swapping two vertices is a revision of one within a revision of the other. -/
theorem swapVertices {i j : Nat} {g h : Graph ν} (hwx : Run w x)
    (hg : x.graphs[i]? = some g) (hh : x.graphs[j]? = some h) (hne : i ≠ j)
    (id id' : NodeId) :
    Run w ((x.setGraph i (g.swapVertices id h id').val.1).setGraph j
      (g.swapVertices id h id').val.2.1) := by
  have hrun := hwx.modify hg id (exchanged hh id')
  have hsame (f : Graph ν) : (x.setGraph i f).setGraph j h = x.setGraph i f := by
    rw [Workspace.setGraph_comm x hne, Workspace.setGraph_self hh]
  unfold Graph.swapVertices
  unfold exchange Graph.modify at hrun
  unfold Graph.modify
  cases hv : g.find? id with
  | none =>
    rw [hv] at hrun
    have hkept : Run w (x.setGraph i g) := hrun
    rw [← hsame] at hkept
    exact hkept
  | some v =>
    rw [hv] at hrun
    cases hu : h.find? id' with
    | none =>
      rw [hu] at hrun
      refine Eq.mpr (congrArg (Run w) (hsame _)) ?_
      exact hrun
    | some u =>
      rw [hu] at hrun
      refine Eq.mpr (congrArg (Run w) (Workspace.setGraph_comm x hne _ _)) ?_
      exact hrun

/-- In a run of graphs of weighted vertices that begins with empty graphs, every graph is consistent
after every step. -/
theorem graphs_consistent {ω : Type} {w x : Workspace φ (Node φ ω)} (hwx : Run w x)
    (hw : ∀ g ∈ w.graphs, g.vertices = .empty) : ∀ g ∈ x.graphs, g.Consistent := by
  intro g hg
  have hsound : w.Sound := fun h hh => .of_vertices_eq_empty (hw h hh)
  exact (hwx.sound hsound g hg).consistent

/-- A vertex that is connected to itself is swapped with one of another graph. The one that comes in
its place knows nothing of the connection, and the one that went away takes nothing along. -/
theorem graphs_consistent_swap :
    ∃ w x : Workspace .multi (Node .multi Unit), Run .start w ∧ Run .start x ∧
      (∀ g ∈ (Workspace.start : Workspace .multi (Node .multi Unit)).graphs, g.vertices = .empty) ∧
      w.graphs.map (·.multiplicity ⟨⟨.first, 0⟩, ⟨.first, 0⟩⟩) = [1, 0] ∧
      x.graphs.map (·.multiplicity ⟨⟨.first, 0⟩, ⟨.first, 0⟩⟩) = [0, 0] ∧
      ∀ g ∈ x.graphs, g.Consistent := by
  have hempty : ∀ g ∈ (Workspace.start : Workspace .multi (Node .multi Unit)).graphs,
      g.vertices = .empty := by
    intro g hg
    rw [List.mem_singleton.mp hg]
    rfl
  have h₁ := (Run.refl (Workspace.start : Workspace .multi (Node .multi Unit))).new
  have h₂ := h₁.alter (i := 0) rfl (.insert _ (Node.new () 1 1))
  have h₃ := h₂.alter (i := 1) rfl (.insert _ (Node.new () 1 1))
  have h₄ := h₃.alter (i := 0) rfl (.connect _ .outgoing ⟨.first, 0⟩ ⟨.first, 0⟩)
  have h₅ := h₄.swapVertices (i := 0) (j := 1) rfl rfl (by decide) .first .first
  exact ⟨_, _, h₄, h₅, hempty, by decide, by decide, graphs_consistent h₅ hempty⟩

end Run

end PortGraph
