import PortGraph.Proofs.Owners

/-!
# What vertices are told in the course of their lives

Any vertex can keep a diary: a list of what it was told, the membership when it joined a graph, and
nothing when it left one (`Diarist`). In a world with any number of graphs and with vertices that no
graph owns, one step leaves the diary of each vertex as it was, or adds what goes with a change of
place: a vertex that is inserted is told its membership, one that is handed out is told to leave,
and one that is moved is told first the one and then the other. A copy begins a diary of its own.
These are all ways in which a diary goes on (`World.Follows`), and every vertex that is found after
a step came there by one of them (`World.Step.follows`).
-/

namespace PortGraph

/-! ## Diaries -/

/-- A vertex together with its diary, oldest entry first. -/
structure Diarist (ν : Type) where
  vertex : ν
  diary : List (Option Membership) := []
deriving DecidableEq

namespace Diarist

variable {φ : Flavour} {ν : Type} [Vertex φ ν]

/-- The vertex does what it does, and notes what it was told. -/
instance : Vertex φ (Diarist ν) where
  ports d v := Vertex.ports d v.vertex
  setPorts d ps v := { v with vertex := Vertex.setPorts d ps v.vertex }
  membership v := Vertex.membership v.vertex
  onJoin m v := do
    let vertex ← Vertex.onJoin m v.vertex
    return ⟨vertex, v.diary ++ [m]⟩
  onLeave v := do
    let vertex ← Vertex.onLeave v.vertex
    return ⟨vertex, v.diary ++ [none]⟩
  copy v := { vertex := Vertex.copy v.vertex }

@[simp] theorem diary_onJoin (m : Option Membership) (v : Diarist ν) :
    (Vertex.onJoin m v).val.diary = v.diary ++ [m] := rfl

@[simp] theorem diary_onLeave (v : Diarist ν) :
    (Vertex.onLeave v).val.diary = v.diary ++ [none] := rfl

/-- Nothing is noted when ports are overwritten. -/
theorem diary_of_refitted {v w : Diarist ν} (h : Vertex.Refitted v w) : w.diary = v.diary := by
  induction h with
  | refl => rfl
  | setPorts _ _ _ ih => exact ih

@[simp] theorem diary_clearLinks (v : Diarist ν) : (Vertex.clearLinks v).diary = v.diary :=
  diary_of_refitted (.mapPorts _ v)

end Diarist

/-- The entries of a diary alternate, beginning with a membership. -/
def Alternating (diary : List (Option Membership)) : Prop :=
  ∀ i m, diary[i]? = some m → (m.isSome = true ↔ i % 2 = 0)

theorem alternating_nil : Alternating [] := fun i m h => by simp at h

/-- What comes next is told by the number of entries. -/
theorem alternating_append_singleton {diary : List (Option Membership)} {m : Option Membership} :
    Alternating (diary ++ [m]) ↔
      Alternating diary ∧ (m.isSome = true ↔ diary.length % 2 = 0) := by
  constructor
  · intro h
    refine ⟨fun i a hi => h i a ?_, h diary.length m (List.getElem?_concat_length)⟩
    obtain ⟨hlt, _⟩ := List.getElem?_eq_some_iff.mp hi
    rwa [List.getElem?_append_left hlt]
  · rintro ⟨h, hm⟩ i a hi
    rcases Nat.lt_trichotomy i diary.length with hlt | rfl | hgt
    · rw [List.getElem?_append_left hlt] at hi
      exact h i a hi
    · rw [List.getElem?_concat_length] at hi
      cases hi
      exact hm
    · rw [List.getElem?_eq_none (by rw [List.length_append]; exact hgt)] at hi
      cases hi

/-- The diary alternates, and by its last entry the vertex is at `place`: under this membership, or
in no graph. -/
structure Orderly (diary : List (Option Membership)) (place : Option Membership) : Prop where
  alternating : Alternating diary
  last : diary.getLast?.join = place

namespace Orderly

variable {diary : List (Option Membership)} {place : Option Membership}

theorem nil : Orderly [] none := ⟨alternating_nil, rfl⟩

/-- The number of entries tells whether the vertex is in a graph. -/
theorem isSome_iff (h : Orderly diary place) : place.isSome = true ↔ diary.length % 2 = 1 := by
  obtain ⟨halternating, rfl⟩ := h
  rcases List.eq_nil_or_concat' diary with rfl | ⟨past, m, rfl⟩
  · decide
  · rw [alternating_append_singleton] at halternating
    rw [List.getLast?_concat, Option.join_some, halternating.2, List.length_append,
      List.length_singleton]
    omega

theorem append (h : Orderly diary place) {m : Option Membership}
    (hm : m.isSome = !place.isSome) : Orderly (diary ++ [m]) m where
  alternating := by
    refine alternating_append_singleton.mpr ⟨h.alternating, ?_⟩
    have hplace := h.isSome_iff
    rw [hm]
    cases hp : place.isSome <;> simp [hp] at hplace ⊢ <;> omega
  last := by rw [List.getLast?_concat, Option.join_some]

end Orderly

/-! ## Worlds -/

/-- Graphs and vertices that no graph owns, and what was noted by those that are no more. -/
structure World (ν : Type) where
  graphs : List (Graph (Diarist ν))
  /-- The identifier for the next graph. -/
  next : GraphId
  /-- Vertices outside all graphs. -/
  loose : List (Diarist ν)
  /-- The diaries of vertices that were destroyed. -/
  closed : List (List (Option Membership))

/-- The diaries of the vertices of `g` that are not in `h` any more. -/
def Graph.lost {ν : Type} (g h : Graph (Diarist ν)) : List (List (Option Membership)) :=
  (g.vertices.entries.filter fun e => !h.contains e.1).map fun e => e.2.diary

namespace World

variable {φ : Flavour} {ν : Type}

/-- The world without graphs and vertices. -/
def start : World ν := ⟨[], .first, [], []⟩

/-- There is a vertex with this diary at this place. -/
inductive Has (x : World ν) : List (Option Membership) → Option Membership → Prop where
  | stored {g : Graph (Diarist ν)} {k : NodeId} {v : Diarist ν} (hg : g ∈ x.graphs)
    (hv : g.find? k = some v) : Has x v.diary (some ⟨g.id, k⟩)
  | loose {v : Diarist ν} (hv : v ∈ x.loose) : Has x v.diary none

variable [Vertex φ ν]

/-- What is done with the connections and vertices of a graph by itself, where no vertex comes in or
is handed out. -/
inductive Work (g : Graph (Diarist ν)) : Graph (Diarist ν) → Prop where
  | connect (d : Direction) (p q : Slot) : Work g (g.connect d p q).val.1
  | link (l : Link) : Work g (g.link l).val.1
  | disconnect (d : Direction) (p q : Slot) : Work g (g.disconnect d p q).val.1
  | disconnectAll (d : Direction) (p : Slot) : Work g (g.disconnectAll d p).val.1
  | erase (id : NodeId) : Work g (g.erase id).val.1
  | retain {σ : Type} (keep : NodeId → Diarist ν → StateM σ Bool) (s : σ) :
    Work g (g.retain keep s).val.1
  | clear : Work g g.clear.val

/-- What can happen in a world. -/
inductive Step : World ν → World ν → Prop where
  | new (x : World ν) : Step x { x with graphs := x.graphs ++ [.empty x.next], next := x.next.next }
  /-- A vertex is made from scratch. -/
  | construct (x : World ν) (v : ν) : Step x { x with loose := x.loose ++ [{ vertex := v }] }
  /-- A vertex is made as a copy of another one. -/
  | copy (x : World ν) (v : Diarist ν) : Step x { x with loose := x.loose ++ [Vertex.copy v] }
  /-- A vertex that no graph owns is destroyed. -/
  | drop {x : World ν} {before after : List (Diarist ν)} {v : Diarist ν}
    (hv : x.loose = before ++ v :: after) :
    Step x { x with loose := before ++ after, closed := x.closed ++ [v.diary] }
  | insert {x : World ν} {i : Nat} {g : Graph (Diarist ν)} {before after : List (Diarist ν)}
    {v : Diarist ν} (hg : x.graphs[i]? = some g) (hv : x.loose = before ++ v :: after) :
    Step x { x with graphs := x.graphs.set i (g.insert v).val.1, loose := before ++ after }
  | emplace {x : World ν} {i : Nat} {g : Graph (Diarist ν)} (hg : x.graphs[i]? = some g) (v : ν) :
    Step x { x with graphs := x.graphs.set i (g.insert { vertex := v }).val.1 }
  | insertCopy {x : World ν} {i : Nat} {g : Graph (Diarist ν)} (hg : x.graphs[i]? = some g)
    (v : Diarist ν) : Step x { x with graphs := x.graphs.set i (g.insertCopy v).val.1 }
  | work {x : World ν} {i : Nat} {g h : Graph (Diarist ν)} (hg : x.graphs[i]? = some g)
    (hgh : Work g h) :
    Step x { x with graphs := x.graphs.set i h, closed := x.closed ++ g.lost h }
  | release {x : World ν} {i : Nat} {g : Graph (Diarist ν)} (hg : x.graphs[i]? = some g)
    (id : NodeId) :
    Step x { x with
      graphs := x.graphs.set i (g.release id).val.1
      loose := x.loose ++ (g.release id).val.2.toList }
  | clone {x : World ν} {i : Nat} {g : Graph (Diarist ν)} (hg : x.graphs[i]? = some g) :
    Step x { x with graphs := x.graphs ++ [(g.clone x.next).val], next := x.next.next }
  | copyInto {x : World ν} {i j : Nat} {g h : Graph (Diarist ν)} (hg : x.graphs[i]? = some g)
    (hh : x.graphs[j]? = some h) (hij : i ≠ j) :
    Step x { x with graphs := x.graphs.set j (g.copyInto h).val.1 }
  | moveInto {x : World ν} {i j : Nat} {g h : Graph (Diarist ν)} (hg : x.graphs[i]? = some g)
    (hh : x.graphs[j]? = some h) (hij : i ≠ j) :
    Step x { x with
      graphs := (x.graphs.set i (g.moveInto h).val.source).set j (g.moveInto h).val.dest }
  | releaseInto {x : World ν} {i j : Nat} {g h : Graph (Diarist ν)} (hg : x.graphs[i]? = some g)
    (hh : x.graphs[j]? = some h) (hij : i ≠ j) (subset : List NodeId) :
    Step x { x with
      graphs := (x.graphs.set i (g.releaseInto subset h).val.source).set j
        (g.releaseInto subset h).val.dest }
  /-- A graph is taken apart. -/
  | dissolve {x : World ν} {i : Nat} {g : Graph (Diarist ν)} (hg : x.graphs[i]? = some g) :
    Step x { x with
      graphs := x.graphs.eraseIdx i
      loose := x.loose ++ g.intoOrphans.val.map Prod.snd }

/-! ## How diaries go on -/

/-- After a step from `x` a vertex can have this diary at this place. -/
inductive Follows (x : World ν) : List (Option Membership) → Option Membership → Prop where
  | kept {diary : List (Option Membership)} {place : Option Membership} (h : x.Has diary place) :
    Follows x diary place
  | made : Follows x [] none
  /-- A vertex that was made is in a graph at once. -/
  | began (m : Membership) : Follows x [some m] (some m)
  | joined {diary : List (Option Membership)} (h : x.Has diary none) (m : Membership) :
    Follows x (diary ++ [some m]) (some m)
  | left {diary : List (Option Membership)} {m : Membership} (h : x.Has diary (some m)) :
    Follows x (diary ++ [none]) none
  | moved {diary : List (Option Membership)} {m : Membership} (h : x.Has diary (some m))
    (m' : Membership) : Follows x (diary ++ [none] ++ [some m']) (some m')

/-- The vertices of a graph can be in it after a step from `x`. -/
def Arrives (x : World ν) (h : Graph (Diarist ν)) : Prop :=
  ∀ ⦃k v⦄, h.find? k = some v → x.Follows v.diary (some ⟨h.id, k⟩)

namespace Arrives

variable {x : World ν} {g h : Graph (Diarist ν)}

omit [Vertex φ ν] in
theorem of_mem (hg : g ∈ x.graphs) : x.Arrives g := fun _ _ hv => .kept (.stored hg hv)

omit [Vertex φ ν] in
theorem of_vertices_eq_empty (hg : g.vertices = .empty) : x.Arrives g := fun k v hv => by
  rw [Graph.find?, hg] at hv
  cases hv

theorem remnant (hg : x.Arrives g) (hr : Graph.Remnant g h) : x.Arrives h := fun k w hw => by
  obtain ⟨v, hv, hvw⟩ := hr.vertices hw
  rw [Diarist.diary_of_refitted hvw, hr.id_eq]
  exact hg hv

/-- A vertex is taken in. -/
theorem insert (hg : x.Arrives g) (hb : g.Bounded) {v : Diarist ν}
    (hv : ∀ m, x.Follows (v.diary ++ [some m]) (some m)) : x.Arrives (g.insert v).val.1 := by
  intro k w hw
  rw [hb.val_insert, Graph.find?_store] at hw
  rw [hb.val_insert]
  split at hw
  · next hk =>
    cases hw
    rw [hk, Diarist.diary_onJoin, Diarist.diary_clearLinks]
    exact hv _
  · exact hg hw

/-- Any number of vertices are taken in. -/
theorem enrolled {dest : Graph (Diarist ν)} (hdest : x.Arrives dest)
    {es : List (Graph.Recruit (Diarist ν))} {names : Renaming}
    (hen : Graph.Enrolled dest es h names)
    (hes : ∀ e ∈ es, ∀ m, x.Follows (e.2 m).diary (some m)) : x.Arrives h := by
  intro a w hw
  rw [hen.id_eq]
  by_cases hnamed : ∃ k, names.get? k = some a
  · obtain ⟨k, hk⟩ := hnamed
    obtain ⟨e, he, rfl⟩ := (hen.exists_get?_iff k).mp ⟨a, hk⟩
    obtain ⟨b, hb, hfind⟩ := hen.stored he
    obtain rfl : b = a := Option.some.inj (hb.symm.trans hk)
    rw [hw] at hfind
    cases hfind
    exact hes e he _
  · rw [hen.kept fun k hk => hnamed ⟨k, hk⟩] at hw
    exact hdest hw

/-- Vertices that are carried over from `source` are told to leave and then to join. -/
theorem relink {source dest : Graph (Diarist ν)} (hdest : x.Arrives dest)
    (hsource : ∀ {k v}, source.find? k = some v → ∃ m, x.Has v.diary (some m))
    {ids : List NodeId} {names : Renaming}
    (hen : Graph.Enrolled dest (source.movers ids) h names) : x.Arrives (h.relink names) := by
  refine (hdest.enrolled hen fun e he m => ?_).remnant (h.refitted_relink names).toRemnant
  obtain ⟨k, _, v, hv, rfl⟩ := Graph.mem_movers_iff.mp he
  obtain ⟨m', hm'⟩ := hsource hv
  exact .moved hm' m

/-- Copies begin a diary of their own. -/
theorem copyInto {dest : Graph (Diarist ν)} (hdest : x.Arrives dest) (hb : dest.Bounded)
    (source : Graph (Diarist ν)) : x.Arrives (source.copyInto dest).val.1 := by
  obtain ⟨h, names, hen, hr, _⟩ := source.enrolled_copyInto hb
  refine (hdest.enrolled hen fun e he m => ?_).remnant hr.toRemnant
  obtain ⟨c, _, rfl⟩ := List.mem_map.mp he
  exact .began m

theorem clone (g : Graph (Diarist ν)) (id : GraphId) : x.Arrives (g.clone id).val := by
  have hcopies : x.Arrives (g.unlinkedClone id) := fun k w hw => by
    rw [Graph.find?_unlinkedClone] at hw
    obtain ⟨v, _, rfl⟩ := Option.map_eq_some_iff.mp hw
    exact .began _
  rw [Graph.val_clone]
  exact hcopies.remnant (Graph.refitted_connectAll _ _).toRemnant

end Arrives

/-- Without a vertex coming in, a graph is left with a part of its vertices. -/
theorem Work.remnant {g h : Graph (Diarist ν)} (hgh : Work g h) : Graph.Remnant g h := by
  cases hgh with
  | connect d p q => exact (g.refitted_connect d p q).toRemnant
  | link l => exact (g.refitted_connect .outgoing l.output l.input).toRemnant
  | disconnect d p q => exact (g.refitted_disconnect d p q).toRemnant
  | disconnectAll d p => exact (g.refitted_disconnectAll d p).toRemnant
  | erase id => exact g.remnant_erase id
  | retain keep s => exact g.remnant_retain keep s
  | clear => exact g.remnant_clear

/-- All graphs of the world are bounded. -/
def Bounded (x : World ν) : Prop := ∀ g ∈ x.graphs, g.Bounded

/-- Graphs stay bounded. -/
theorem Step.bounded {x y : World ν} (hxy : Step x y) (hx : x.Bounded) : y.Bounded := by
  have hinvariant : Graph.Invariant fun _ (g : Graph (Diarist ν)) => g.Bounded :=
    Graph.invariant_bounded
  have hempty : (Graph.empty x.next : Graph (Diarist ν)).Bounded := hinvariant.empty x.next
  cases hxy with
  | new => exact forall_mem_concat hx hempty
  | construct | copy | drop => exact hx
  | insert hg hv => exact forall_mem_set hx _ ((hx _ (List.mem_of_getElem? hg)).insert _)
  | emplace hg v => exact forall_mem_set hx _ ((hx _ (List.mem_of_getElem? hg)).insert _)
  | insertCopy hg v => exact forall_mem_set hx _ ((hx _ (List.mem_of_getElem? hg)).insert _)
  | work hg hgh => exact forall_mem_set hx _ (hgh.remnant.bounded (hx _ (List.mem_of_getElem? hg)))
  | @release _ g hg id =>
    exact forall_mem_set hx _ ((g.remnant_release id).bounded (hx _ (List.mem_of_getElem? hg)))
  | clone hg => exact forall_mem_concat hx ((hx _ (List.mem_of_getElem? hg)).clone x.next)
  | copyInto hg hh => exact forall_mem_set hx _ ((hx _ (List.mem_of_getElem? hh)).copyInto _)
  | moveInto hg hh =>
    obtain ⟨hsource, hdest⟩ := hinvariant.moveInto (n := .first) (hx _ (List.mem_of_getElem? hg))
      (hx _ (List.mem_of_getElem? hh))
    exact forall_mem_set (forall_mem_set hx _ hsource) _ hdest
  | releaseInto hg hh _ subset =>
    obtain ⟨hsource, hdest⟩ := hinvariant.releaseInto (n := .first)
      (hx _ (List.mem_of_getElem? hg)) (hx _ (List.mem_of_getElem? hh)) subset
    exact forall_mem_set (forall_mem_set hx _ hsource) _ hdest
  | dissolve => exact fun g hg => hx g (List.mem_of_mem_eraseIdx hg)

/-- The graphs and the vertices outside that a step leads to are made of those that there were. -/
theorem Step.arrives {x y : World ν} (hxy : Step x y) (hx : x.Bounded) :
    (∀ h ∈ y.graphs, x.Arrives h) ∧ ∀ v ∈ y.loose, x.Follows v.diary none := by
  have hgraphs : ∀ g ∈ x.graphs, x.Arrives g := fun g hg => .of_mem hg
  have hloose : ∀ v ∈ x.loose, x.Follows v.diary none := fun v hv => .kept (.loose hv)
  have hrest {before after : List (Diarist ν)} {v : Diarist ν}
      (hv : x.loose = before ++ v :: after) :
      ∀ w ∈ before ++ after, x.Follows w.diary none := fun w hw => by
    refine hloose w ?_
    rw [hv]
    rcases List.mem_append.mp hw with hw | hw
    · exact List.mem_append_left _ hw
    · exact List.mem_append_right _ (.tail _ hw)
  have hlisted {before after : List (Diarist ν)} {v : Diarist ν}
      (hv : x.loose = before ++ v :: after) : x.Has v.diary none :=
    .loose (hv ▸ List.mem_append_right _ (.head _))
  cases hxy with
  | new => exact ⟨forall_mem_concat hgraphs (.of_vertices_eq_empty rfl), hloose⟩
  | construct | copy => exact ⟨hgraphs, forall_mem_concat hloose .made⟩
  | drop hv => exact ⟨hgraphs, hrest hv⟩
  | insert hg hv =>
    have hmem := List.mem_of_getElem? hg
    exact ⟨forall_mem_set hgraphs _ ((hgraphs _ hmem).insert (hx _ hmem) (.joined (hlisted hv))),
      hrest hv⟩
  | emplace hg v =>
    have hmem := List.mem_of_getElem? hg
    exact ⟨forall_mem_set hgraphs _ ((hgraphs _ hmem).insert (hx _ hmem) .began), hloose⟩
  | insertCopy hg v =>
    have hmem := List.mem_of_getElem? hg
    exact ⟨forall_mem_set hgraphs _ ((hgraphs _ hmem).insert (hx _ hmem) .began), hloose⟩
  | work hg hgh =>
    exact ⟨forall_mem_set hgraphs _ ((hgraphs _ (List.mem_of_getElem? hg)).remnant hgh.remnant),
      hloose⟩
  | @release _ g hg id =>
    have hmem := List.mem_of_getElem? hg
    refine ⟨forall_mem_set hgraphs _ ((hgraphs _ hmem).remnant (g.remnant_release id)),
      List.forall_mem_append.mpr ⟨hloose, fun v hv => ?_⟩⟩
    obtain ⟨w, hw, rfl⟩ := Graph.release_eq_some (Option.mem_toList.mp hv)
    obtain ⟨u, hu, huw⟩ := (g.refitted_severWhere id _).vertices hw
    rw [Diarist.diary_onLeave, Diarist.diary_of_refitted huw]
    exact .left (.stored hmem hu)
  | @clone _ g hg => exact ⟨forall_mem_concat hgraphs (.clone g x.next), hloose⟩
  | copyInto hg hh =>
    have hmem := List.mem_of_getElem? hh
    exact ⟨forall_mem_set hgraphs _ ((hgraphs _ hmem).copyInto (hx _ hmem) _), hloose⟩
  | @moveInto _ _ g h hg hh =>
    have hmem := List.mem_of_getElem? hg
    have hmem' := List.mem_of_getElem? hh
    obtain ⟨dest, names, hval, hen⟩ := g.moveInto_eq (hx _ hmem')
    rw [hval]
    exact ⟨forall_mem_set (forall_mem_set hgraphs _ (.of_vertices_eq_empty rfl)) _
      ((hgraphs _ hmem').relink (fun hv => ⟨_, .stored hmem hv⟩) hen), hloose⟩
  | @releaseInto _ _ g h hg hh _ subset =>
    have hmem := List.mem_of_getElem? hg
    have hmem' := List.mem_of_getElem? hh
    by_cases hsub : ∀ k ∈ subset, g.contains k = true
    · obtain ⟨dest, names, hval, hen⟩ := g.enrolled_releaseInto (hx _ hmem') hsub
      have hleft := (g.refitted_severed subset).toRemnant.trans
        (Graph.remnant_without _ (g.chosen subset))
      rw [hval]
      refine ⟨forall_mem_set (forall_mem_set hgraphs _ ((hgraphs _ hmem).remnant hleft)) _
        ((hgraphs _ hmem').relink (fun hw => ?_) hen), hloose⟩
      obtain ⟨v, hv, hvw⟩ := (g.refitted_severed subset).vertices hw
      rw [Diarist.diary_of_refitted hvw]
      exact ⟨_, .stored hmem hv⟩
    · obtain ⟨k, _, _, _, hval⟩ := Graph.releaseInto_of_missing h hsub
      rw [hval]
      exact ⟨forall_mem_set (forall_mem_set hgraphs _ (hgraphs _ hmem)) _ (hgraphs _ hmem'), hloose⟩
  | @dissolve _ g hg =>
    refine ⟨fun h hh => hgraphs h (List.mem_of_mem_eraseIdx hh),
      List.forall_mem_append.mpr ⟨hloose, fun v hv => ?_⟩⟩
    obtain ⟨k, w, hw, rfl⟩ := Graph.mem_intoOrphans.mp hv
    rw [Diarist.diary_onLeave, Diarist.diary_clearLinks]
    exact .left (.stored (List.mem_of_getElem? hg) hw)

/-- A vertex with this diary is somewhere in the world after a step. -/
theorem Step.follows {x y : World ν} (hxy : Step x y) (hx : x.Bounded)
    {diary : List (Option Membership)} {place : Option Membership} (h : y.Has diary place) :
    x.Follows diary place := by
  obtain ⟨hgraphs, hloose⟩ := hxy.arrives hx
  cases h with
  | stored hg hv => exact hgraphs _ hg hv
  | loose hv => exact hloose _ hv

omit [Vertex φ ν] in
/-- The vertices that a graph loses were in it. -/
theorem exists_has_of_mem_lost {x : World ν} {g h : Graph (Diarist ν)} (hg : g ∈ x.graphs)
    {diary : List (Option Membership)} (hd : diary ∈ g.lost h) : ∃ place, x.Has diary place := by
  obtain ⟨e, he, rfl⟩ := List.mem_map.mp hd
  have hfind : g.find? e.1 = some e.2 := IdMap.get?_eq_some_iff.mpr (List.mem_filter.mp he).1
  exact ⟨_, .stored hg hfind⟩

/-- A vertex that is destroyed is told nothing. -/
theorem Step.closed {x y : World ν} (hxy : Step x y) {diary : List (Option Membership)}
    (hd : diary ∈ y.closed) : diary ∈ x.closed ∨ ∃ place, x.Has diary place := by
  cases hxy with
  | drop hv =>
    refine (List.mem_append.mp hd).imp_right fun hd => ?_
    rw [List.mem_singleton.mp hd]
    exact ⟨none, .loose (hv ▸ List.mem_append_right _ (.head _))⟩
  | work hg =>
    exact (List.mem_append.mp hd).imp_right (exists_has_of_mem_lost (List.mem_of_getElem? hg))
  | _ => exact .inl hd

end World

end PortGraph
