import PortGraph.Proofs.Copying
import PortGraph.Proofs.Modifying
import PortGraph.Proofs.Transferring

/-!
# What no operation brings into a graph

Apart from the vertices that it takes in, an operation leaves a graph with a part of its vertices,
changed at most in their ports: a `Remnant`. This does not ask for consistency, and it asks for
nothing of the vertices. Connecting, disconnecting and relinking leave all vertices where they are,
so that the graph is `Refitted` (`refitted_connect`, `refitted_disconnect`, ...). So does a revision
with the graph that has the revised vertex in its place (`refitted_repair`). Removing vertices
leaves remnants (`remnant_erase`, `remnant_release`, ...).
-/

namespace PortGraph

variable {φ : Flavour} {ν : Type} [Vertex φ ν]

/-! ## Vertices with other ports -/

/-- `w` is the vertex `v` after its ports were overwritten, any number of times. -/
inductive Vertex.Refitted : ν → ν → Prop
  | refl (v : ν) : Refitted v v
  | setPorts {u v : ν} (h : Refitted u v) (d : Direction) (ps : List (Port φ)) :
    Refitted u (Vertex.setPorts d ps v)

namespace Vertex.Refitted

theorem trans {u v w : ν} (huv : Refitted u v) (hvw : Refitted v w) : Refitted u w := by
  induction hvw with
  | refl => exact huv
  | setPorts _ d ps ih => exact ih.setPorts d ps

theorem adjustPort (d : Direction) (i : Nat) (f : Port φ → Port φ) (v : ν) :
    Refitted v (Vertex.adjustPort d i f v) :=
  (Refitted.refl v).setPorts d _

theorem mapPorts (f : Port φ → Port φ) (v : ν) : Refitted v (Vertex.mapPorts f v) :=
  ((Refitted.refl v).setPorts .incoming _).setPorts .outgoing _

end Vertex.Refitted

namespace Graph

/-! ## Remnants -/

/-- `h` has the identity and the counter of `g` and none but its vertices, with other ports at most.
-/
structure Remnant (g h : Graph ν) : Prop where
  id_eq : h.id = g.id
  next_eq : h.next = g.next
  vertices {k : NodeId} {w : ν} (hw : h.find? k = some w) :
    ∃ v, g.find? k = some v ∧ Vertex.Refitted v w

namespace Remnant

variable {f g h : Graph ν}

theorem refl (g : Graph ν) : Remnant g g := ⟨rfl, rfl, fun hw => ⟨_, hw, .refl _⟩⟩

theorem trans (hfg : Remnant f g) (hgh : Remnant g h) : Remnant f h where
  id_eq := hgh.id_eq.trans hfg.id_eq
  next_eq := hgh.next_eq.trans hfg.next_eq
  vertices hw := by
    obtain ⟨v, hv, hvw⟩ := hgh.vertices hw
    obtain ⟨u, hu, huv⟩ := hfg.vertices hv
    exact ⟨u, hu, huv.trans hvw⟩

/-- Nothing is stored that was not stored before. -/
theorem contains (hr : Remnant g h) {k : NodeId} (hk : h.contains k = true) :
    g.contains k = true := by
  obtain ⟨w, hw⟩ := contains_iff.mp hk
  obtain ⟨v, hv, _⟩ := hr.vertices hw
  exact contains_iff.mpr ⟨v, hv⟩

theorem bounded (hr : Remnant g h) (hg : g.Bounded) : h.Bounded :=
  hg.mono (Nat.le_of_eq (congrArg NodeId.val hr.next_eq).symm) fun _ hk => hr.contains hk

/-- Steps that leave remnants leave one together. -/
theorem foldl {α : Type} {step : Graph ν → α → Graph ν} (hstep : ∀ g a, Remnant g (step g a))
    (g : Graph ν) (as : List α) : Remnant g (as.foldl step g) := by
  induction as generalizing g with
  | nil => exact .refl g
  | cons a rest ih => exact (hstep g a).trans (ih (step g a))

/-- A graph is left with the vertices that pass a test. -/
theorem filter (g : Graph ν) (keep : NodeId → ν → Bool) :
    Remnant g { g with vertices := g.vertices.filter keep } where
  id_eq := rfl
  next_eq := rfl
  vertices {k w} hw := by
    have hfilter := IdMap.get?_filter g.vertices keep k
    change (g.vertices.filter keep).get? k = some w at hw
    rw [hw] at hfilter
    exact ⟨w, (Option.filter_eq_some_iff.mp hfilter.symm).1, .refl w⟩

end Remnant

/-! ## Refitted graphs -/

/-- `h` has all of the vertices of `g`, with other ports at most. -/
structure Refitted (g h : Graph ν) : Prop extends Remnant g h where
  stored {k : NodeId} (hk : g.contains k = true) : h.contains k = true

namespace Refitted

variable {f g h : Graph ν}

theorem refl (g : Graph ν) : Refitted g g := ⟨.refl g, fun hk => hk⟩

theorem trans (hfg : Refitted f g) (hgh : Refitted g h) : Refitted f h :=
  ⟨hfg.toRemnant.trans hgh.toRemnant, fun hk => hgh.stored (hfg.stored hk)⟩

/-- A vertex that is stored before is stored afterwards. -/
theorem exists_find? (hr : Refitted g h) {k : NodeId} {v : ν} (hv : g.find? k = some v) :
    ∃ w, h.find? k = some w ∧ Vertex.Refitted v w := by
  obtain ⟨w, hw⟩ := contains_iff.mp (hr.stored (contains_iff.mpr ⟨v, hv⟩))
  obtain ⟨u, hu, huw⟩ := hr.vertices hw
  obtain rfl : v = u := Option.some.inj (hv.symm.trans hu)
  exact ⟨w, hw, huw⟩

/-- Steps that refit a graph refit it together. -/
theorem foldl {α : Type} {step : Graph ν → α → Graph ν} (hstep : ∀ g a, Refitted g (step g a))
    (g : Graph ν) (as : List α) : Refitted g (as.foldl step g) := by
  induction as generalizing g with
  | nil => exact .refl g
  | cons a rest ih => exact (hstep g a).trans (ih (step g a))

end Refitted

/-- Changing the ports of a vertex refits a graph. -/
theorem refitted_adjust (g : Graph ν) (id : NodeId) {f : ν → ν}
    (hf : ∀ v, Vertex.Refitted v (f v)) : Refitted g (g.adjust id f) where
  id_eq := rfl
  next_eq := rfl
  vertices {k w} hw := by
    rw [find?_adjust] at hw
    split at hw
    · obtain ⟨v, hv, rfl⟩ := Option.map_eq_some_iff.mp hw
      exact ⟨v, hv, hf v⟩
    · exact ⟨w, hw, .refl w⟩
  stored hk := (g.contains_adjust id _ f).trans hk

theorem refitted_adjustPort (g : Graph ν) (d : Direction) (s : Slot) (f : Port φ → Port φ) :
    Refitted g (g.adjustPort d s f) :=
  g.refitted_adjust s.node (Vertex.Refitted.adjustPort d s.offset f)

/-! ## Connections -/

theorem refitted_connect (g : Graph ν) (d : Direction) (p q : Slot) :
    Refitted g (g.connect d p q).val.1 := by
  by_cases h : g.Admits (.between d p q)
  · rw [connect_of_admits h]
    exact (g.refitted_adjustPort d p _).trans (refitted_adjustPort _ d.opposite q _)
  · rw [(connect_of_not_admits h).1]
    exact .refl g

theorem refitted_connectAll (g : Graph ν) (ls : List Link) :
    Refitted g (g.connectAll ls).val.1 := by
  induction ls generalizing g with
  | nil => exact .refl g
  | cons l rest ih =>
    have hfirst := g.refitted_connect .incoming l.input l.output
    rw [connectAll, Journaled.val_bind]
    generalize (g.connect .incoming l.input l.output).val = made at hfirst
    obtain ⟨h, e | b⟩ := made
    · exact hfirst
    · exact hfirst.trans (ih h)

theorem refitted_disconnect (g : Graph ν) (d : Direction) (p q : Slot) :
    Refitted g (g.disconnect d p q).val.1 := by
  by_cases h : g.Links (.between d p q)
  · rw [disconnect_of_links h]
    exact (g.refitted_adjustPort d p _).trans (refitted_adjustPort _ d.opposite q _)
  · rw [(disconnect_of_not_links h).1]
    exact .refl g

theorem refitted_forgetAt (g : Graph ν) (d : Direction) (near : Slot) (fars : List Slot) :
    Refitted g (g.forgetAt d near fars).1 := by
  induction fars generalizing g with
  | nil => exact .refl g
  | cons far rest ih => exact (g.refitted_adjustPort d far _).trans (ih _)

theorem refitted_disconnectAll (g : Graph ν) (d : Direction) (s : Slot) :
    Refitted g (g.disconnectAll d s).val.1 := by
  cases hp : g.port? d s with
  | none =>
    rw [disconnectAll_eq_self hp]
    exact .refl g
  | some p =>
    rw [disconnectAll_fst hp]
    exact (g.refitted_adjustPort d s _).trans (refitted_forgetAt _ _ _ _)

theorem refitted_severWhere (g : Graph ν) (id : NodeId) (keep : NodeId → Bool) :
    Refitted g (g.severWhere id keep).val := by
  have hsever (d : Direction) (g : Graph ν) (c : Slot × Slot) :
      Refitted g (g.sever d c.1 c.2).val := by
    rw [val_sever]
    exact g.refitted_disconnect d c.1 c.2
  unfold severWhere
  cases g.find? id with
  | none => exact .refl g
  | some v =>
    simp only [Journaled.val_bind, Journaled.val_foldlM]
    exact (Refitted.foldl (hsever .incoming) g _).trans (.foldl (hsever .outgoing) _ _)

theorem refitted_severed (g : Graph ν) (subset : List NodeId) : Refitted g (g.severed subset) :=
  .foldl (fun g id => g.refitted_severWhere id _) g _

/-! ## Removals -/

theorem remnant_without (g : Graph ν) (ids : List NodeId) : Remnant g (g.without ids) :=
  .filter g _

theorem remnant_erase (g : Graph ν) (id : NodeId) : Remnant g (g.erase id).val.1 := by
  by_cases h : g.contains id = true
  · rw [val_erase_of_contains h]
    exact (g.refitted_severWhere id _).toRemnant.trans (.filter _ _)
  · rw [val_erase_of_not_contains h]
    exact .refl g

theorem remnant_unbind (g : Graph ν) (id : NodeId) : Remnant g (g.unbind id).val.1 := by
  unfold unbind
  cases g.find? id with
  | none => exact .refl g
  | some v => exact .filter g _

theorem remnant_release (g : Graph ν) (id : NodeId) : Remnant g (g.release id).val.1 := by
  unfold release
  split
  · exact (g.refitted_severWhere id _).toRemnant.trans (remnant_unbind _ id)
  · exact .refl g

theorem remnant_retain {σ : Type} (g : Graph ν) (keep : NodeId → ν → StateM σ Bool) (s : σ) :
    Remnant g (g.retain keep s).val.1 := by
  rw [val_retain]
  exact .foldl (fun g id => g.remnant_erase id) g _

/-- A graph that was cleared has no vertices. -/
theorem remnant_clear (g : Graph ν) : Remnant g g.clear.val :=
  ⟨rfl, rfl, fun hw => absurd hw (by rintro ⟨⟩)⟩

/-! ## Relinking -/

theorem refitted_relink (g : Graph ν) (names : Renaming) : Refitted g (g.relink names) :=
  .foldl (fun g id => g.refitted_adjust id (Vertex.Refitted.mapPorts _)) g _

/-! ## Copies -/

/-- The same identifiers are in use in the copies of the vertices of a graph. -/
theorem contains_unlinkedClone (g : Graph ν) (id : GraphId) (k : NodeId) :
    (g.unlinkedClone id).contains k = g.contains k := by
  change ((g.unlinkedClone id).find? k).isSome = (g.find? k).isSome
  rw [find?_unlinkedClone]
  exact Option.isSome_map

/-- Copies are taken in by a bounded graph, whether or not all connections among them can be made.
-/
theorem enrolled_copyInto (source : Graph ν) {dest : Graph ν} (hdest : dest.Bounded) :
    ∃ h names, Enrolled dest (copies source.vertices.entries) h names ∧
      Refitted h (source.copyInto dest).val.1 ∧
      ((source.copyInto dest).val.2 = .ok names ∨
        ∃ e, (source.copyInto dest).val.2 = .error (.connect e)) := by
  obtain ⟨h, names, hval, hen⟩ := source.enrolled_copies hdest
  refine ⟨h, names, hen, ?_, ?_⟩
  · rw [val_copyInto, hval]
    exact refitted_connectAll _ _
  · unfold copyInto replicate
    simp only [Journaled.val_bind, hval]
    generalize (h.connectAll _).val = made
    obtain ⟨h', e | u⟩ := made
    · exact .inr ⟨e, rfl⟩
    · exact .inl rfl

/-! ## Revisions -/

theorem refitted_restore (id : NodeId) (g : Graph ν) (l : Link) : Refitted g (restore id g l) := by
  have hend (d : Direction) (g : Graph ν) : Refitted g (restoreEnd id d g l) := by
    unfold restoreEnd
    split
    · exact g.refitted_adjustPort d _ _
    · exact .refl g
  rw [restore_eq]
  exact (hend .incoming g).trans (hend .outgoing _)

theorem refitted_dropLost (id : NodeId) (g : Graph ν) (l : Link) :
    Refitted g (dropLost id g l).val := by
  unfold dropLost
  split
  · exact .refl g
  · exact g.refitted_adjustPort _ _ _

/-- A repair refits the graph with the revised vertex in its place, bound again. -/
theorem refitted_repair (g : Graph ν) (id : NodeId) (inbound outbound : List Link) (w : ν) :
    Refitted (g.adjust id fun _ => (g.rebind id w).val) (g.repair id inbound outbound w).val := by
  have hclear : Refitted (g.adjust id fun _ => (g.rebind id w).val)
      (g.seated id (g.rebind id w).val) := by
    refine ⟨⟨rfl, rfl, fun {k u} hu => ?_⟩, fun {k} hk => ?_⟩
    · rw [seated, find?_adjust] at hu
      rw [find?_adjust]
      split at hu
      · next hk =>
        obtain ⟨v, hv, rfl⟩ := Option.map_eq_some_iff.mp hu
        exact ⟨_, by rw [if_pos hk, hv]; rfl, .mapPorts _ _⟩
      · next hk => exact ⟨u, by rw [if_neg hk, hu], .refl u⟩
    · rwa [seated, contains_adjust, ← contains_adjust]
  unfold repair
  simp only [Journaled.val_bind, Journaled.val_foldlM]
  exact hclear.trans ((Refitted.foldl (refitted_restore id) _ _).trans
    (.foldl (refitted_dropLost id) _ _))

/-- So does a revision; if there is no such vertex, it leaves the graph as it is. -/
theorem refitted_modify {ρ : Type} (g : Graph ν) (id : NodeId) (f : ν → Journaled (ν × ρ)) :
    (g.modify id f).val.1 = g ∨
      ∃ w, Refitted (g.adjust id fun _ => (g.rebind id w).val) (g.modify id f).val.1 := by
  unfold modify
  cases hv : g.find? id with
  | none => exact .inl rfl
  | some v => exact .inr ⟨_, g.refitted_repair id _ _ _⟩

/-! ## Bounds -/

/-- A bounded graph is bounded after a revision. -/
theorem Bounded.modify {ρ : Type} {g : Graph ν} (hg : g.Bounded) (id : NodeId)
    (f : ν → Journaled (ν × ρ)) : (g.modify id f).val.1.Bounded := by
  rcases g.refitted_modify id f with hsame | ⟨w, hr⟩
  · rw [hsame]
    exact hg
  · apply hr.bounded
    refine hg.mono (Nat.le_refl _) fun k hk => ?_
    rwa [contains_adjust] at hk

/-- A clone is bounded by the counter of the graph. -/
theorem Bounded.clone {g : Graph ν} (hg : g.Bounded) (id : GraphId) :
    (g.clone id).val.Bounded := by
  have hcopies : (g.unlinkedClone id).Bounded :=
    hg.mono (Nat.le_refl _) fun k hk => by rwa [contains_unlinkedClone] at hk
  rw [val_clone]
  exact (refitted_connectAll _ _).bounded hcopies

/-- Copying any graph into a bounded one keeps it bounded. -/
theorem Bounded.copyInto {dest : Graph ν} (hdest : dest.Bounded) (source : Graph ν) :
    (source.copyInto dest).val.1.Bounded := by
  obtain ⟨h, names, hen, hr, _⟩ := source.enrolled_copyInto hdest
  exact hr.bounded hen.bounded

end Graph

end PortGraph
