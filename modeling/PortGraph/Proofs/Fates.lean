import PortGraph.Proofs.Diaries

/-!
# No vertex gets lost

Where a vertex that is found after a step came from is told by `World.Follows`. Here is the other
half: every vertex that there is before a step can be accounted for afterwards (`World.Step.fate`).
It is where it was and was told nothing; or it is elsewhere, and its diary goes on with what it was
told on the way; or it was destroyed, and its diary is among those that were closed.

Working on connections destroys nobody, and erasing a vertex destroys no other one (`World.Spares`).
-/

namespace PortGraph

/-! ## Lists -/

/-- Overwriting a place of a list removes nothing but what stood there. -/
theorem eq_or_mem_set {α : Type} {as : List α} {i : Nat} {a b : α} (hb : as[i]? = some b) (c : α)
    (ha : a ∈ as) : a = b ∨ a ∈ as.set i c := by
  obtain ⟨j, hj⟩ := List.mem_iff_getElem?.mp ha
  by_cases hij : i = j
  · subst hij
    exact .inl (Option.some.inj (hj.symm.trans hb))
  · exact .inr (List.mem_iff_getElem?.mpr ⟨j, by rw [List.getElem?_set_ne hij, hj]⟩)

/-- So does deleting it. -/
theorem eq_or_mem_eraseIdx {α : Type} {as : List α} {i : Nat} {a b : α} (hb : as[i]? = some b)
    (ha : a ∈ as) : a = b ∨ a ∈ as.eraseIdx i := by
  obtain ⟨j, hj⟩ := List.mem_iff_getElem?.mp ha
  by_cases hij : j = i
  · subst hij
    exact .inl (Option.some.inj (hj.symm.trans hb))
  · exact .inr (List.mem_eraseIdx_iff_getElem?.mpr ⟨j, hij, hj⟩)

/-- What is written is in the list. -/
theorem mem_set_of_getElem? {α : Type} {as : List α} {i : Nat} {b : α} (hb : as[i]? = some b)
    (c : α) : c ∈ as.set i c :=
  List.mem_set (List.getElem?_eq_some_iff.mp hb).1 c

namespace Graph

variable {φ : Flavour} {ν : Type}

/-! ## Vertices that a graph loses -/

/-- A vertex is lost if it was stored and is not any more. -/
theorem mem_lost_iff {g h : Graph (Diarist ν)} {diary : List (Option Membership)} :
    diary ∈ g.lost h ↔ ∃ k v, g.find? k = some v ∧ ¬h.contains k = true ∧ v.diary = diary := by
  simp only [lost, List.mem_map, List.mem_filter, Bool.not_eq_true', Bool.not_eq_true]
  constructor
  · rintro ⟨⟨k, v⟩, ⟨hmem, hgone⟩, hdiary⟩
    exact ⟨k, v, IdMap.get?_eq_some_iff.mpr hmem, hgone, hdiary⟩
  · rintro ⟨k, v, hv, hgone, hdiary⟩
    exact ⟨(k, v), ⟨IdMap.get?_eq_some_iff.mp hv, hgone⟩, hdiary⟩

variable [Vertex φ ν]

/-- A graph that is refitted loses none. -/
theorem Refitted.lost_eq_nil {g h : Graph (Diarist ν)} (hr : Refitted g h) : g.lost h = [] := by
  refine List.eq_nil_iff_forall_not_mem.mpr fun diary hd => ?_
  obtain ⟨k, v, hv, hgone, _⟩ := mem_lost_iff.mp hd
  exact hgone (hr.stored (contains_iff.mpr ⟨v, hv⟩))

/-- A graph loses none but the vertex that is erased. -/
theorem eq_of_mem_lost_erase {g : Graph (Diarist ν)} {id : NodeId}
    {diary : List (Option Membership)} (hd : diary ∈ g.lost (g.erase id).val.1) :
    ∃ v, g.find? id = some v ∧ v.diary = diary := by
  obtain ⟨k, v, hv, hgone, hdiary⟩ := mem_lost_iff.mp hd
  by_cases hk : k = id
  · exact ⟨v, hk ▸ hv, hdiary⟩
  · refine absurd ?_ hgone
    have hstored := contains_iff.mpr ⟨v, hv⟩
    by_cases hid : g.contains id = true
    · obtain ⟨w, hw, _⟩ := (g.refitted_severWhere id fun _ => false).exists_find? hv
      refine contains_iff.mpr ⟨w, ?_⟩
      rw [val_erase_of_contains hid, find?_drop, if_neg hk, hw]
    · rwa [val_erase_of_not_contains hid]

end Graph

namespace World

variable {φ : Flavour} {ν : Type} [Vertex φ ν]

/-! ## What becomes of a vertex -/

/-- What can have become of a vertex in a step to `y`, by its diary and place before. -/
inductive Fate (y : World ν) (diary : List (Option Membership)) : Option Membership → Prop where
  | stayed {place : Option Membership} (h : y.Has diary place) : Fate y diary place
  | joined {m : Membership} (h : y.Has (diary ++ [some m]) (some m)) : Fate y diary none
  | left {m : Membership} (h : y.Has (diary ++ [none]) none) : Fate y diary (some m)
  | moved {m m' : Membership} (h : y.Has (diary ++ [none] ++ [some m']) (some m')) :
    Fate y diary (some m)
  | destroyed {place : Option Membership} (h : diary ∈ y.closed) : Fate y diary place

/-- Each vertex of a graph of the world before is accounted for in `y`. -/
def Accounts (y : World ν) (g : Graph (Diarist ν)) : Prop :=
  ∀ ⦃k v⦄, g.find? k = some v → y.Fate v.diary (some ⟨g.id, k⟩)

namespace Accounts

variable {x y : World ν} {g h : Graph (Diarist ν)}

omit [Vertex φ ν] in
/-- A graph of which all vertices stayed. -/
theorem of_kept (hh : h ∈ y.graphs) (hid : h.id = g.id)
    (hkept : ∀ {k v}, g.find? k = some v → ∃ w, h.find? k = some w ∧ w.diary = v.diary) :
    y.Accounts g := by
  intro k v hv
  obtain ⟨w, hw, hdiary⟩ := hkept hv
  rw [← hdiary, ← hid]
  exact .stayed (.stored hh hw)

omit [Vertex φ ν] in
theorem of_mem (hg : g ∈ y.graphs) : y.Accounts g :=
  of_kept hg rfl fun hv => ⟨_, hv, rfl⟩

/-- A graph of which some vertices stayed, and the others were destroyed. -/
theorem of_remnant (hr : Graph.Remnant g h) (hh : h ∈ y.graphs)
    (hclosed : ∀ diary ∈ g.lost h, diary ∈ y.closed) : y.Accounts g := by
  intro k v hv
  by_cases hk : h.contains k = true
  · obtain ⟨w, hw⟩ := Graph.contains_iff.mp hk
    obtain ⟨u, hu, huw⟩ := hr.vertices hw
    obtain rfl : v = u := Option.some.inj (hv.symm.trans hu)
    rw [← Diarist.diary_of_refitted huw, ← hr.id_eq]
    exact .stayed (.stored hh hw)
  · exact .destroyed (hclosed _ (Graph.mem_lost_iff.mpr ⟨k, v, hv, hk, rfl⟩))

/-- A graph that took in another vertex. -/
theorem of_insert (hb : g.Bounded) {u : Diarist ν} (hh : (g.insert u).val.1 ∈ y.graphs) :
    y.Accounts g := by
  refine of_kept hh ?_ fun hv => ⟨_, hb.find?_insert u hv, rfl⟩
  rw [hb.val_insert]
  rfl

/-- A graph that took in copies. -/
theorem of_copyInto {source : Graph (Diarist ν)} (hb : g.Bounded)
    (hh : (source.copyInto g).val.1 ∈ y.graphs) : y.Accounts g := by
  obtain ⟨f, names, hen, hr, _⟩ := source.enrolled_copyInto hb
  refine of_kept hh (hr.id_eq.trans hen.id_eq) fun {k v} hv => ?_
  rw [← hen.kept (hen.not_named_of_find? hb hv)] at hv
  obtain ⟨w, hw, hvw⟩ := hr.exists_find? hv
  exact ⟨w, hw, Diarist.diary_of_refitted hvw⟩

/-- A graph that handed out a vertex, if it was there. -/
theorem of_release {id : NodeId} (hh : (g.release id).val.1 ∈ y.graphs)
    (hloose : ∀ v ∈ (g.release id).val.2, v ∈ y.loose) : y.Accounts g := by
  by_cases hid : g.contains id = true
  · have hr := g.refitted_severWhere id fun _ => false
    obtain ⟨u, hu, hval⟩ := Graph.exists_val_release hid
    rw [hval] at hh hloose
    have hleft : ((g.severWhere id fun _ => false).val.without [id]).id = g.id := hr.id_eq
    intro k v hv
    obtain ⟨w, hw, hvw⟩ := hr.exists_find? hv
    rw [← Diarist.diary_of_refitted hvw]
    by_cases hk : k = id
    · subst hk
      obtain rfl : u = w := Option.some.inj (hu.symm.trans hw)
      exact .left (.loose (hloose _ rfl))
    · rw [← hleft]
      refine .stayed (.stored hh ?_)
      rw [Graph.find?_without, if_neg (by simpa using hk), hw]
  · rw [Graph.release, if_neg hid] at hh
    exact .of_mem hh

/-- A graph that was taken apart. -/
theorem of_orphans (hloose : ∀ v ∈ g.intoOrphans.val.map Prod.snd, v ∈ y.loose) :
    y.Accounts g := by
  intro k v hv
  have hplace := Has.loose (hloose _ (Graph.mem_intoOrphans.mpr ⟨k, v, hv, rfl⟩))
  rw [Diarist.diary_onLeave, Diarist.diary_clearLinks] at hplace
  exact .left hplace

omit [Vertex φ ν] in
/-- One graph of the world before is overwritten, the others are not. -/
theorem of_set {i : Nat} (hg : x.graphs[i]? = some g) (hy : y.graphs = x.graphs.set i h)
    (haccounts : h ∈ y.graphs → y.Accounts g) : ∀ f ∈ x.graphs, y.Accounts f := by
  intro f hf
  rcases eq_or_mem_set hg h hf with rfl | hmem
  · exact haccounts (hy ▸ mem_set_of_getElem? hg h)
  · exact .of_mem (hy ▸ hmem)

/-! ### Transfers -/

/-- The vertices that a graph was taken, and moved to another one. -/
theorem fate_of_movers {source dest : Graph (Diarist ν)} {ids : List NodeId} {names : Renaming}
    (hen : Graph.Enrolled dest (source.movers ids) h names) (hh : h.relink names ∈ y.graphs)
    {k : NodeId} (hk : k ∈ ids) {v : Diarist ν} (hv : source.find? k = some v) (m : Membership) :
    y.Fate v.diary (some m) := by
  obtain ⟨a, ha⟩ := (hen.exists_name_iff k).mpr ⟨hk, Graph.contains_iff.mpr ⟨v, hv⟩⟩
  have hplace := Has.stored hh (hen.find?_relink ha hv)
  have hdiary : (Vertex.renameLinks names.get? (Vertex.rejoin ⟨dest.id, a⟩ v)).diary =
      v.diary ++ [none] ++ [some ⟨dest.id, a⟩] := Diarist.diary_of_refitted (.mapPorts _ _)
  rw [hdiary, (h.refitted_relink names).id_eq, hen.id_eq] at hplace
  exact .moved hplace

/-- A graph that vertices were moved to. -/
theorem of_relink {source : Graph (Diarist ν)} {ids : List NodeId} {names : Renaming}
    (hen : Graph.Enrolled g (source.movers ids) h names) (hb : g.Bounded)
    (hh : h.relink names ∈ y.graphs) : y.Accounts g := by
  refine of_kept hh ((h.refitted_relink names).id_eq.trans hen.id_eq) fun {k v} hv => ?_
  refine ⟨v, ?_, rfl⟩
  rw [hen.find?_relink_of_not_named (hen.not_named_of_find? hb hv), hv]

/-- A graph from which some vertices were moved, after it was severed. -/
theorem of_severed {dest : Graph (Diarist ν)} {subset ids : List NodeId} {names : Renaming}
    (hen : Graph.Enrolled dest ((g.severed subset).movers ids) h names)
    (hleft : (g.severed subset).without ids ∈ y.graphs) (hh : h.relink names ∈ y.graphs) :
    y.Accounts g := by
  have hr := g.refitted_severed subset
  have hid : ((g.severed subset).without ids).id = g.id := hr.id_eq
  intro k v hv
  obtain ⟨w, hw, hvw⟩ := hr.exists_find? hv
  rw [← Diarist.diary_of_refitted hvw]
  by_cases hk : k ∈ ids
  · exact fate_of_movers hen hh hk hw _
  · rw [← hid]
    refine .stayed (.stored hleft ?_)
    rw [Graph.find?_without, if_neg (by simpa using hk), hw]

omit [Vertex φ ν] in
/-- Two graphs of the world before are overwritten in a transfer, the others are not. -/
theorem of_transfer {i j : Nat} {source dest : Graph (Diarist ν)} (hg : x.graphs[i]? = some g)
    (hh : x.graphs[j]? = some h) (hij : i ≠ j)
    (hy : y.graphs = (x.graphs.set i source).set j dest)
    (haccounts : source ∈ y.graphs → dest ∈ y.graphs → y.Accounts g ∧ y.Accounts h) :
    ∀ f ∈ x.graphs, y.Accounts f := by
  have hh' : (x.graphs.set i source)[j]? = some h := by rw [List.getElem?_set_ne hij, hh]
  have hsource : source ∈ y.graphs := by
    refine List.mem_iff_getElem?.mpr ⟨i, ?_⟩
    rw [hy, List.getElem?_set_ne (Ne.symm hij),
      List.getElem?_set_self (List.getElem?_eq_some_iff.mp hg).1]
  obtain ⟨hgives, htakes⟩ := haccounts hsource (hy ▸ mem_set_of_getElem? hh' dest)
  intro f hf
  rcases eq_or_mem_set hg source hf with rfl | hf
  · exact hgives
  rcases eq_or_mem_set hh' dest hf with rfl | hf
  · exact htakes
  · exact .of_mem (hy ▸ hf)

end Accounts

/-! ## Steps -/

omit [Vertex φ ν] in
/-- Vertices outside all graphs stay there if more come. -/
theorem fate_of_loose {x y : World ν} {more : List (Diarist ν)} (hy : y.loose = x.loose ++ more) :
    ∀ v ∈ x.loose, y.Fate v.diary none := by
  intro v hv
  refine .stayed (.loose ?_)
  rw [hy]
  exact List.mem_append_left more hv

omit [Vertex φ ν] in
/-- They stay there if one of them is taken. -/
theorem fate_of_taken {x y : World ν} {before after : List (Diarist ν)} {v : Diarist ν}
    (hv : x.loose = before ++ v :: after) (hy : y.loose = before ++ after)
    (hfate : y.Fate v.diary none) : ∀ w ∈ x.loose, y.Fate w.diary none := by
  intro w hw
  rw [hv, List.mem_append, List.mem_cons] at hw
  rcases hw with hw | rfl | hw
  · exact .stayed (.loose (hy ▸ List.mem_append_left after hw))
  · exact hfate
  · exact .stayed (.loose (hy ▸ List.mem_append_right before hw))

/-- A vertex that is taken from outside joins the graph that it is inserted into. -/
theorem fate_of_insert {y : World ν} {g : Graph (Diarist ν)} (hb : g.Bounded) {v : Diarist ν}
    (hh : (g.insert v).val.1 ∈ y.graphs) : y.Fate v.diary none := by
  rw [hb.val_insert] at hh
  have hfind := (g.find?_store
    (Vertex.onJoin (some ⟨g.id, g.next⟩) (Vertex.clearLinks v)).val g.next).trans (if_pos rfl)
  have hplace := Has.stored hh hfind
  rw [Diarist.diary_onJoin, Diarist.diary_clearLinks] at hplace
  exact .joined hplace

/-- After a step, all vertices that there were are accounted for. -/
theorem Step.accounts {x y : World ν} (hxy : Step x y) (hx : x.Bounded) :
    (∀ g ∈ x.graphs, y.Accounts g) ∧ ∀ v ∈ x.loose, y.Fate v.diary none := by
  have hloose : y.loose = x.loose → ∀ v ∈ x.loose, y.Fate v.diary none := fun h =>
    fate_of_loose (h.trans (List.append_nil _).symm)
  cases hxy with
  | new => exact ⟨fun g hg => .of_mem (List.mem_append_left _ hg), hloose rfl⟩
  | construct | copy => exact ⟨fun g hg => .of_mem hg, fate_of_loose rfl⟩
  | drop hv =>
    exact ⟨fun g hg => .of_mem hg, fate_of_taken hv rfl
      (.destroyed (List.mem_append_right _ (List.mem_singleton.mpr rfl)))⟩
  | insert hg hv =>
    have hb := hx _ (List.mem_of_getElem? hg)
    exact ⟨.of_set hg rfl (.of_insert hb),
      fate_of_taken hv rfl (fate_of_insert hb (mem_set_of_getElem? hg _))⟩
  | emplace hg | insertCopy hg =>
    exact ⟨.of_set hg rfl (.of_insert (hx _ (List.mem_of_getElem? hg))), hloose rfl⟩
  | work hg hgh =>
    exact ⟨.of_set hg rfl fun hh => .of_remnant hgh.remnant hh fun _ hd =>
      List.mem_append_right _ hd, hloose rfl⟩
  | release hg id =>
    exact ⟨.of_set hg rfl fun hh => .of_release hh fun _ hv =>
      List.mem_append_right _ (Option.mem_toList.mpr hv), fate_of_loose rfl⟩
  | clone hg => exact ⟨fun g hg => .of_mem (List.mem_append_left _ hg), hloose rfl⟩
  | copyInto hg hh =>
    exact ⟨.of_set hh rfl (.of_copyInto (hx _ (List.mem_of_getElem? hh))), hloose rfl⟩
  | @moveInto i j g h hg hh hij =>
    have hb := hx _ (List.mem_of_getElem? hh)
    obtain ⟨dest, names, hval, hen⟩ := g.moveInto_eq hb
    refine ⟨.of_transfer hg hh hij rfl fun _ hdest => ?_, hloose rfl⟩
    simp only [hval] at hdest ⊢
    exact ⟨fun k v hv => Accounts.fate_of_movers hen hdest
      (IdMap.mem_keys_iff.mpr (Graph.contains_iff.mpr ⟨v, hv⟩)) hv _, .of_relink hen hb hdest⟩
  | @releaseInto i j g h hg hh hij subset =>
    have hb := hx _ (List.mem_of_getElem? hh)
    refine ⟨.of_transfer hg hh hij rfl fun hsource hdest => ?_, hloose rfl⟩
    by_cases hsub : ∀ k ∈ subset, g.contains k = true
    · obtain ⟨dest, names, hval, hen⟩ := g.enrolled_releaseInto hb hsub
      simp only [hval] at hsource hdest ⊢
      exact ⟨.of_severed hen hsource hdest, .of_relink hen hb hdest⟩
    · obtain ⟨k, _, _, _, hval⟩ := Graph.releaseInto_of_missing h hsub
      simp only [hval] at hsource hdest ⊢
      exact ⟨.of_mem hsource, .of_mem hdest⟩
  | dissolve hg =>
    refine ⟨fun f hf => ?_, fate_of_loose rfl⟩
    rcases eq_or_mem_eraseIdx hg hf with rfl | hmem
    · exact .of_orphans fun v hv => List.mem_append_right _ hv
    · exact .of_mem hmem

/-- No vertex gets lost in a step. -/
theorem Step.fate {x y : World ν} (hxy : Step x y) (hx : x.Bounded)
    {diary : List (Option Membership)} {place : Option Membership} (h : x.Has diary place) :
    y.Fate diary place := by
  obtain ⟨hgraphs, hloose⟩ := hxy.accounts hx
  cases h with
  | stored hg hv => exact hgraphs _ hg hv
  | loose hv => exact hloose _ hv

/-- What was destroyed stays destroyed. -/
theorem Step.closed_prefix {x y : World ν} (hxy : Step x y) : x.closed <+: y.closed := by
  cases hxy with
  | drop | work => exact List.prefix_append _ _
  | _ => exact List.prefix_rfl

/-! ## Who is destroyed -/

/-- Whom work on a graph destroys. -/
structure Spares (g : Graph (Diarist ν)) : Prop where
  connect (d : Direction) (p q : Slot) : g.lost (g.connect d p q).val.1 = []
  disconnect (d : Direction) (p q : Slot) : g.lost (g.disconnect d p q).val.1 = []
  disconnectAll (d : Direction) (p : Slot) : g.lost (g.disconnectAll d p).val.1 = []
  /-- Nobody but the vertex that is erased. -/
  erase {id : NodeId} {diary : List (Option Membership)}
    (hd : diary ∈ g.lost (g.erase id).val.1) : ∃ v, g.find? id = some v ∧ v.diary = diary

theorem spares (g : Graph (Diarist ν)) : Spares g where
  connect d p q := (g.refitted_connect d p q).lost_eq_nil
  disconnect d p q := (g.refitted_disconnect d p q).lost_eq_nil
  disconnectAll d p := (g.refitted_disconnectAll d p).lost_eq_nil
  erase hd := Graph.eq_of_mem_lost_erase hd

end World

end PortGraph
