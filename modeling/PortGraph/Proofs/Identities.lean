import PortGraph.Proofs.Remnants
import PortGraph.Proofs.Runs

/-!
# Vertices know where they are

A vertex is told its membership whenever it joins a graph, and again after a revision in which it
lost it. So each stored vertex carries the identity of its graph and the identifier under which it
is stored: the graph is `Placed`. `Continues g h` says that an operation that made `h` of `g` kept
the identity of the graph and kept it placed; remnants, revisions and the enrolling of vertices that
record their membership all do, whether or not the graph is consistent.

Identifiers for graphs are handed out once, so that a graph that is made has another identity than
all those that there are (`Rooted`, and `Established` of sound graphs). Runs keep graphs rooted, and
where vertices keep their ports established.
-/

namespace PortGraph

variable {φ : Flavour} {ν : Type} [Vertex φ ν]

/-- Other ports do not change what a vertex reports as its membership. -/
theorem Vertex.Refitted.membership_eq [RecordingVertex φ ν] {v w : ν} (h : Vertex.Refitted v w) :
    Vertex.membership w = Vertex.membership v := by
  induction h with
  | refl => rfl
  | setPorts _ d ps ih => rw [RecordingVertex.membership_setPorts, ih]

namespace Graph

/-! ## Bounds -/

/-- Being bounded is an invariant of graphs of any vertices. -/
theorem invariant_bounded : Invariant fun _ (g : Graph ν) => g.Bounded where
  mono _ hg := hg
  empty _ := bounded_of_vertices_eq_empty rfl
  alteration {n g h} hg hgh := by
    cases hgh with
    | insert v => exact hg.insert v
    | insertCopy v => exact hg.insert (Vertex.copy v)
    | connect d p q => exact (g.refitted_connect d p q).bounded hg
    | link l => exact (g.refitted_connect .outgoing l.output l.input).bounded hg
    | disconnect d p q => exact (g.refitted_disconnect d p q).bounded hg
    | disconnectAll d p => exact (g.refitted_disconnectAll d p).bounded hg
    | erase id => exact (g.remnant_erase id).bounded hg
    | release id => exact (g.remnant_release id).bounded hg
    | clear => exact g.remnant_clear.bounded hg
  retain {σ n g} hg keep s := (g.remnant_retain keep s).bounded hg
  modify hg id f := hg.modify id f
  clone hg := hg.clone _
  copyInto {n g h} _ hh := hh.copyInto g
  moveInto {n g h} _ hh := by
    obtain ⟨dest, names, hval, hen⟩ := g.moveInto_eq hh
    rw [hval]
    exact ⟨bounded_of_vertices_eq_empty rfl, (dest.refitted_relink names).bounded hen.bounded⟩
  releaseInto {n g h} hg hh subset := by
    by_cases hsub : ∀ k ∈ subset, g.contains k = true
    · obtain ⟨dest, names, hval, hen⟩ := g.enrolled_releaseInto hh hsub
      rw [hval]
      have hleft := (g.refitted_severed subset).toRemnant.trans
        (remnant_without _ (g.chosen subset))
      exact ⟨hleft.bounded hg, (dest.refitted_relink names).bounded hen.bounded⟩
    · obtain ⟨k, _, _, _, hval⟩ := releaseInto_of_missing h hsub
      rw [hval]
      exact ⟨hg, hh⟩

/-! ## Memberships -/

/-- Every vertex carries the membership that it has. -/
def Placed (g : Graph ν) : Prop :=
  ∀ ⦃k v⦄, g.find? k = some v → Vertex.membership v = some ⟨g.id, k⟩

/-- A graph without vertices is placed. -/
theorem placed_of_vertices_eq_empty {g : Graph ν} (h : g.vertices = .empty) : g.Placed := by
  intro k v hv
  rw [find?, h] at hv
  cases hv

/-- `h` is what became of the graph `g`. It has the same identity, and its vertices carry their
memberships if those of `g` do. -/
structure Continues (g h : Graph ν) : Prop where
  id_eq : h.id = g.id
  placed (hg : g.Placed) : h.Placed

namespace Continues

variable {f g h : Graph ν}

theorem refl (g : Graph ν) : Continues g g := ⟨rfl, fun hg => hg⟩

theorem trans (hfg : Continues f g) (hgh : Continues g h) : Continues f h :=
  ⟨hgh.id_eq.trans hfg.id_eq, fun hf => hgh.placed (hfg.placed hf)⟩

/-- A vertex that was told its membership is stored. -/
theorem store (g : Graph ν) {v : ν} (hv : Vertex.membership v = some ⟨g.id, g.next⟩) :
    Continues g (g.store v) where
  id_eq := rfl
  placed hg := by
    intro k w hw
    rw [find?_store] at hw
    by_cases hk : k = g.next
    · rw [if_pos hk] at hw
      cases hw
      rw [hv, hk]
      rfl
    · rw [if_neg hk] at hw
      exact hg hw

/-- Vertices that record the membership they are told are taken in. -/
theorem enrolled {dest : Graph ν} {es : List (Recruit ν)} {names : Renaming}
    (hen : Enrolled dest es h names)
    (hes : ∀ e ∈ es, ∀ m, Vertex.membership (e.2 m) = some m) : Continues dest h where
  id_eq := hen.id_eq
  placed hdest := by
    intro a w hw
    by_cases hnamed : ∃ k, names.get? k = some a
    · obtain ⟨k, hk⟩ := hnamed
      obtain ⟨e, he, rfl⟩ := (hen.exists_get?_iff k).mp ⟨a, hk⟩
      obtain ⟨b, hb, hfind⟩ := hen.stored he
      have hab : b = a := Option.some.inj (hb.symm.trans hk)
      rw [hab, hw] at hfind
      cases hfind
      rw [hes e he, hen.id_eq]
    · rw [hen.kept fun k hk => hnamed ⟨k, hk⟩] at hw
      rw [hdest hw, hen.id_eq]

/-- A vertex is replaced by one that was told the membership of its place. -/
theorem replace (g : Graph ν) {id : NodeId} {u : ν}
    (hu : Vertex.membership u = some ⟨g.id, id⟩) : Continues g (g.adjust id fun _ => u) where
  id_eq := rfl
  placed hg := by
    intro k w hw
    rw [find?_adjust] at hw
    split at hw
    · next hk =>
      obtain ⟨v, _, rfl⟩ := Option.map_eq_some_iff.mp hw
      rw [hu, hk]
      rfl
    · exact hg hw

variable [RecordingVertex φ ν]

theorem remnant (hr : Remnant g h) : Continues g h where
  id_eq := hr.id_eq
  placed hg := by
    intro k w hw
    obtain ⟨v, hv, hvw⟩ := hr.vertices hw
    rw [hvw.membership_eq, hg hv, hr.id_eq]

theorem insert (g : Graph ν) (v : ν) : Continues g (g.insert v).val.1 := by
  unfold Graph.insert
  by_cases hc : g.contains g.next = true
  · rw [adopt_of_contains hc]
    exact ⟨rfl, fun hg => hg⟩
  · rw [adopt_of_not_contains hc]
    exact .store g (JoiningVertex.membership_onJoin _ _)

/-- What is done with one graph by itself continues it. -/
theorem alteration (hgh : Alteration g h) : Continues g h := by
  cases hgh with
  | insert v => exact .insert g v
  | insertCopy v => exact .insert g (Vertex.copy v)
  | connect d p q => exact .remnant (g.refitted_connect d p q).toRemnant
  | link l => exact .remnant (g.refitted_connect .outgoing l.output l.input).toRemnant
  | disconnect d p q => exact .remnant (g.refitted_disconnect d p q).toRemnant
  | disconnectAll d p => exact .remnant (g.refitted_disconnectAll d p).toRemnant
  | erase id => exact .remnant (g.remnant_erase id)
  | release id => exact .remnant (g.remnant_release id)
  | clear => exact .remnant g.remnant_clear

/-- A revision binds the vertex to its place and leaves the others bound to theirs. -/
theorem modify {ρ : Type} (g : Graph ν) (id : NodeId) (f : ν → Journaled (ν × ρ)) :
    Continues g (g.modify id f).val.1 := by
  rcases g.refitted_modify id f with hsame | ⟨w, hr⟩
  · rw [hsame]
    exact .refl g
  · exact (replace g (membership_rebind g id w)).trans (.remnant hr.toRemnant)

/-! ### Copies -/

/-- Copying continues the graph that the copies are inserted into. -/
theorem copyInto {dest : Graph ν} (hdest : dest.Bounded) (source : Graph ν) :
    Continues dest (source.copyInto dest).val.1 := by
  obtain ⟨h, names, hen, hr, _⟩ := source.enrolled_copyInto hdest
  have hcopies : Continues dest h := by
    refine .enrolled hen fun e he m => ?_
    obtain ⟨x, _, rfl⟩ := List.mem_map.mp he
    exact JoiningVertex.membership_onJoin _ _
  exact hcopies.trans (.remnant hr.toRemnant)

/-! ### Transfers -/

/-- Vertices that were carried over and relinked carry their new memberships. -/
theorem relink {source dest : Graph ν} {ids : List NodeId} {names : Renaming}
    (hen : Enrolled dest (source.movers ids) h names) : Continues dest (h.relink names) := by
  have hmovers : Continues dest h := by
    refine .enrolled hen fun e he m => ?_
    obtain ⟨k, _, v, _, rfl⟩ := mem_movers_iff.mp he
    exact JoiningVertex.membership_onJoin _ _
  exact hmovers.trans (.remnant (h.refitted_relink names).toRemnant)

/-- Moving all vertices continues both graphs. -/
theorem moveInto (g : Graph ν) {dest : Graph ν} (hdest : dest.Bounded) :
    Continues g (g.moveInto dest).val.source ∧ Continues dest (g.moveInto dest).val.dest := by
  obtain ⟨h, names, hval, hen⟩ := g.moveInto_eq hdest
  rw [hval]
  exact ⟨.remnant g.remnant_clear, .relink hen⟩

/-- Moving some vertices continues both graphs. -/
theorem releaseInto (g : Graph ν) {dest : Graph ν} (hdest : dest.Bounded)
    (subset : List NodeId) :
    Continues g (g.releaseInto subset dest).val.source ∧
      Continues dest (g.releaseInto subset dest).val.dest := by
  by_cases hsub : ∀ k ∈ subset, g.contains k = true
  · obtain ⟨h, names, hval, hen⟩ := g.enrolled_releaseInto hdest hsub
    rw [hval]
    exact ⟨.remnant ((g.refitted_severed subset).toRemnant.trans (remnant_without _ _)),
      .relink hen⟩
  · obtain ⟨k, _, _, _, hval⟩ := releaseInto_of_missing dest hsub
    rw [hval]
    exact ⟨.refl g, .refl dest⟩

end Continues

/-! ## Clones -/

variable [RecordingVertex φ ν]

omit [RecordingVertex φ ν] in
/-- A clone has the identity that it is given. -/
theorem id_clone (g : Graph ν) (id : GraphId) : (g.clone id).val.id = id := by
  rw [val_clone]
  exact (refitted_connectAll _ _).id_eq

/-- The vertices of a clone carry their memberships, whatever those of the original carry. -/
theorem placed_clone (g : Graph ν) (id : GraphId) : (g.clone id).val.Placed := by
  have hcopies : (g.unlinkedClone id).Placed := by
    intro k w hw
    rw [find?_unlinkedClone] at hw
    obtain ⟨v, _, rfl⟩ := Option.map_eq_some_iff.mp hw
    exact JoiningVertex.membership_onJoin _ _
  rw [val_clone]
  exact (Continues.remnant (refitted_connectAll _ _).toRemnant).placed hcopies

/-! ## Rooted graphs -/

/-- What a run keeps of a graph where `n` is the identifier for the next graph, whether or not the
graph is consistent. -/
structure Rooted (n : GraphId) (g : Graph ν) : Prop where
  bounded : g.Bounded
  placed : g.Placed
  /-- The identity of the graph was handed out before. -/
  issued : g.id.val < n.val

namespace Rooted

variable {n : GraphId} {g h : Graph ν}

omit [RecordingVertex φ ν] in
theorem continues (hg : Rooted n g) (hgh : Continues g h) (hh : h.Bounded) : Rooted n h where
  bounded := hh
  placed := hgh.placed hg.placed
  issued := by
    rw [hgh.id_eq]
    exact hg.issued

omit [RecordingVertex φ ν] in
/-- A graph that is made is rooted if it is bounded and placed. -/
theorem made (hg : g.Bounded) (hplaced : g.Placed) (hid : g.id = n) : Rooted n.next g where
  bounded := hg
  placed := hplaced
  issued := by
    rw [hid]
    exact Nat.lt_succ_self n.val

end Rooted

/-- Being rooted is an invariant of graphs of vertices that record their membership. -/
theorem invariant_rooted : Invariant fun n (g : Graph ν) => Rooted n g where
  mono hnm hg := ⟨hg.bounded, hg.placed, Nat.lt_of_lt_of_le hg.issued hnm⟩
  empty _ := .made (bounded_of_vertices_eq_empty rfl) (placed_of_vertices_eq_empty rfl) rfl
  alteration {n g h} hg hgh :=
    hg.continues (.alteration hgh) (invariant_bounded.alteration (n := n) hg.bounded hgh)
  retain {σ n g} hg keep s := by
    have hr := g.remnant_retain keep s
    exact hg.continues (.remnant hr) (hr.bounded hg.bounded)
  modify hg id f := hg.continues (.modify _ id f) (hg.bounded.modify id f)
  clone {n g} hg := .made (hg.bounded.clone n) (g.placed_clone n) (g.id_clone n)
  copyInto {n g h} _ hh :=
    hh.continues (.copyInto hh.bounded g) (hh.bounded.copyInto g)
  moveInto {n g h} hg hh := by
    obtain ⟨hsource, hdest⟩ := Continues.moveInto g hh.bounded
    obtain ⟨hsource', hdest'⟩ := invariant_bounded.moveInto (n := n) hg.bounded hh.bounded
    exact ⟨hg.continues hsource hsource', hh.continues hdest hdest'⟩
  releaseInto {n g h} hg hh subset := by
    obtain ⟨hsource, hdest⟩ := Continues.releaseInto g hh.bounded subset
    obtain ⟨hsource', hdest'⟩ := invariant_bounded.releaseInto (n := n) hg.bounded hh.bounded subset
    exact ⟨hg.continues hsource hsource', hh.continues hdest hdest'⟩

/-! ## Established graphs -/

/-- What a run keeps of a graph of vertices that keep their ports, where `n` is the identifier for
the next graph. -/
structure Established (n : GraphId) (g : Graph ν) : Prop where
  sound : g.Sound
  placed : g.Placed
  /-- The identity of the graph was handed out before. -/
  issued : g.id.val < n.val

omit [RecordingVertex φ ν] in
/-- Established graphs are those that are sound and rooted. -/
theorem established_iff {n : GraphId} {g : Graph ν} :
    Established n g ↔ g.Sound ∧ Rooted n g :=
  ⟨fun h => ⟨h.sound, h.sound.bounded, h.placed, h.issued⟩,
    fun h => ⟨h.1, h.2.placed, h.2.issued⟩⟩

omit [RecordingVertex φ ν] in
/-- Being established is an invariant of graphs of vertices that keep their ports. -/
theorem invariant_established [SteadyVertex φ ν] :
    Invariant fun n (g : Graph ν) => Established n g := by
  simp only [established_iff]
  exact invariant_sound.and invariant_rooted

end Graph

/-- Every graph that a run comes to from the start is established. -/
theorem Run.established [SteadyVertex φ ν] {x : Workspace φ ν} (hx : Run .start x) :
    ∀ g ∈ x.graphs, Graph.Established x.next g := by
  have hstart : Workspace.All Graph.Established (Workspace.start : Workspace φ ν) := by
    intro g hg
    rw [List.mem_singleton.mp hg]
    exact Graph.invariant_established.empty .first
  exact (hx.reaches Graph.invariant_established hstart).all

end PortGraph
