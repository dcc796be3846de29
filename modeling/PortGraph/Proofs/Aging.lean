import Mathlib.Data.List.Forall2
import PortGraph.Proofs.Identities
import PortGraph.Proofs.Sessions

/-!
# Graphs as they age

`Ages g ks h` says that the graph `g` became `h` and handed out the identifiers `ks` on the way: its
counter moved on past them, and of the identifiers below the counter of `g` none came into use
again. This asks for nothing but that the graph is bounded by its counter. Every call lets each
graph that it takes age by the identifiers that its answer names (`Call.accounts`).
-/

namespace PortGraph

variable {φ : Flavour} {ν : Type}

namespace Graph

/-! ## Aging -/

/-- `h` is what became of `g` after it handed out the identifiers `ks`, in this order. -/
structure Ages (g : Graph ν) (ks : List NodeId) (h : Graph ν) : Prop where
  id_eq : h.id = g.id
  next_le : g.next ≤ h.next
  ascending : ks.Pairwise (· < ·)
  between {k : NodeId} (hk : k ∈ ks) : g.next ≤ k ∧ k < h.next
  /-- What is not in use is not stored again. -/
  stored {k : NodeId} (hk : h.contains k = true) (hlt : k < g.next) : g.contains k = true

namespace Ages

variable {f g h : Graph ν} {ks ls : List NodeId}

theorem refl (g : Graph ν) : Ages g [] g where
  id_eq := rfl
  next_le := Nat.le_refl _
  ascending := .nil
  between hk := absurd hk List.not_mem_nil
  stored hk _ := hk

theorem trans (hfg : Ages f ks g) (hgh : Ages g ls h) : Ages f (ks ++ ls) h where
  id_eq := hgh.id_eq.trans hfg.id_eq
  next_le := Nat.le_trans hfg.next_le hgh.next_le
  ascending := by
    refine List.pairwise_append.mpr ⟨hfg.ascending, hgh.ascending, fun k hk l hl => ?_⟩
    exact Nat.lt_of_lt_of_le (hfg.between hk).2 (hgh.between hl).1
  between {k} hk := by
    rcases List.mem_append.mp hk with hk | hk
    · exact ⟨(hfg.between hk).1, Nat.lt_of_lt_of_le (hfg.between hk).2 hgh.next_le⟩
    · exact ⟨Nat.le_trans hfg.next_le (hgh.between hk).1, (hgh.between hk).2⟩
  stored hk hlt := hfg.stored (hgh.stored hk (Nat.lt_of_lt_of_le hlt hfg.next_le)) hlt

/-- A graph ages by any identifiers, whether or not they are named. -/
theorem forget (hgh : Ages g ks h) : Ages g [] h where
  id_eq := hgh.id_eq
  next_le := hgh.next_le
  ascending := .nil
  between hk := absurd hk List.not_mem_nil
  stored := hgh.stored

/-- Without a new identifier nothing is stored that was not. -/
theorem of_contains (hid : h.id = g.id) (hnext : h.next = g.next)
    (hstored : ∀ k, h.contains k = true → g.contains k = true) : Ages g [] h where
  id_eq := hid
  next_le := Nat.le_of_eq (congrArg NodeId.val hnext).symm
  ascending := .nil
  between hk := absurd hk List.not_mem_nil
  stored hk _ := hstored _ hk

/-- Vertices that are taken in receive the identifiers that follow the counter. -/
theorem enrolled {dest : Graph ν} {es : List (Recruit ν)} {names : Renaming}
    (hen : Enrolled dest es h names) : Ages dest names.values h where
  id_eq := hen.id_eq
  next_le := by
    rw [NodeId.le_def, hen.next_eq]
    exact Nat.le_add_right _ _
  ascending := by
    have hvals : (names.values.map NodeId.val).Pairwise (· < ·) := by
      rw [hen.values_eq]
      exact List.pairwise_lt_range'
    rw [List.pairwise_map] at hvals
    exact hvals
  between hk := by
    obtain ⟨j, hj⟩ := IdMap.mem_values_iff.mp hk
    exact hen.between_of_get? hj
  stored {k} hk hlt := by
    refine ((hen.stored_iff k).mp hk).resolve_right ?_
    rintro ⟨j, hj⟩
    exact NodeId.lt_irrefl _ (Nat.lt_of_lt_of_le hlt (hen.between_of_get? hj).1)

variable [Vertex φ ν]

theorem remnant (hr : Remnant g h) : Ages g [] h :=
  .of_contains hr.id_eq hr.next_eq fun _ hk => hr.contains hk

/-- A vertex that is inserted receives the identifier at the counter. -/
theorem insert (hg : g.Bounded) (v : ν) :
    Ages g (Outcome.named (fun k => [k]) (g.insert v).val.2) (g.insert v).val.1 := by
  rw [hg.val_insert]
  refine ⟨rfl, Nat.le_succ _, List.pairwise_singleton _ _, fun {k} hk => ?_, fun {k} hk hlt => ?_⟩
  · rw [List.mem_singleton.mp hk]
    exact ⟨Nat.le_refl _, NodeId.lt_next g.next⟩
  · obtain ⟨w, hw⟩ := contains_iff.mp hk
    have hne : k ≠ g.next := by
      rintro rfl
      exact NodeId.lt_irrefl _ hlt
    rw [find?_store, if_neg hne] at hw
    exact contains_iff.mpr ⟨w, hw⟩

theorem modify {ρ : Type} (g : Graph ν) (id : NodeId) (f : ν → Journaled (ν × ρ)) :
    Ages g [] (g.modify id f).val.1 := by
  rcases g.refitted_modify id f with hsame | ⟨w, hr⟩
  · rw [hsame]
    exact .refl g
  · have hreplaced : Ages g [] (g.adjust id fun _ => (g.rebind id w).val) :=
      .of_contains rfl rfl fun k hk => by rwa [contains_adjust] at hk
    exact hreplaced.trans (.remnant hr.toRemnant)

theorem modifyEach {σ : Type} (g : Graph ν) (f : σ → NodeId → ν → Journaled (ν × σ)) (s : σ) :
    Ages g [] (g.modifyEach f s).val.1 :=
  (modifyEach_invariant (Q := Ages g []) (P := fun _ => True)
    (fun h id f hg => hg.trans (.modify h id f)) (fun _ _ _ _ => trivial) (.refl g)
    (f := f) (x := s) trivial).1

/-- A clone starts out with the counter of its original. -/
theorem clone (g : Graph ν) (id : GraphId) : Ages { g with id } [] (g.clone id).val := by
  have hcopies : Ages { g with id } [] (g.unlinkedClone id) :=
    .of_contains rfl rfl fun k hk => by rwa [contains_unlinkedClone] at hk
  rw [val_clone]
  exact hcopies.trans (.remnant (refitted_connectAll _ _).toRemnant)

/-- Copies receive new identifiers, whether or not all of their connections can be made. -/
theorem copyInto {dest : Graph ν} (hdest : dest.Bounded) (source : Graph ν) :
    Ages dest (Outcome.named IdMap.values (source.copyInto dest).val.2)
      (source.copyInto dest).val.1 := by
  obtain ⟨h, names, hen, hr, hok | ⟨e, herror⟩⟩ := source.enrolled_copyInto hdest
  all_goals
    have hcopied := (enrolled hen).trans (.remnant hr.toRemnant)
    rw [List.append_nil] at hcopied
  · rw [hok]
    exact hcopied
  · rw [herror]
    exact hcopied.forget

/-- Vertices that are carried over receive new identifiers, and those of the source are given up. -/
theorem moveInto (source : Graph ν) {dest : Graph ν} (hdest : dest.Bounded) :
    Ages source [] (source.moveInto dest).val.source ∧
      Ages dest (Outcome.named IdMap.values (source.moveInto dest).val.answer)
        (source.moveInto dest).val.dest := by
  obtain ⟨h, names, hval, hen⟩ := source.moveInto_eq hdest
  rw [hval]
  have hrelinked := (enrolled hen).trans (.remnant (h.refitted_relink names).toRemnant)
  rw [List.append_nil] at hrelinked
  exact ⟨.remnant source.remnant_clear, hrelinked⟩

theorem releaseInto (source : Graph ν) {dest : Graph ν} (hdest : dest.Bounded)
    (subset : List NodeId) :
    Ages source [] (source.releaseInto subset dest).val.source ∧
      Ages dest (Outcome.named IdMap.values (source.releaseInto subset dest).val.answer)
        (source.releaseInto subset dest).val.dest := by
  by_cases hsub : ∀ k ∈ subset, source.contains k = true
  · obtain ⟨h, names, hval, hen⟩ := source.enrolled_releaseInto hdest hsub
    rw [hval]
    have hrelinked := (enrolled hen).trans (.remnant (h.refitted_relink names).toRemnant)
    rw [List.append_nil] at hrelinked
    exact ⟨.remnant ((source.refitted_severed subset).toRemnant.trans (remnant_without _ _)),
      hrelinked⟩
  · obtain ⟨k, _, _, _, hval⟩ := releaseInto_of_missing dest hsub
    rw [hval]
    exact ⟨.refl source, .refl dest⟩

end Ages

end Graph

/-! ## Calls -/

namespace Call

/-- The graphs that the call makes, as they start out. A clone starts out as its original under
another identity. -/
def born : Call φ ν → List (Graph ν)
  | new id | releaseSet _ _ id => [.empty id]
  | clone g id => [{ g with id }]
  | _ => []

/-- The graphs that the call starts from. -/
def grounds (c : Call φ ν) : List (Graph ν) := c.takes ++ c.born

theorem made_of_mem_born {c : Call φ ν} {b : Graph ν} (hb : b ∈ c.born) : c.made = some b.id := by
  cases c with
  | new id => rw [List.mem_singleton.mp hb]; rfl
  | clone g id => rw [List.mem_singleton.mp hb]; rfl
  | releaseSet g subset id => rw [List.mem_singleton.mp hb]; rfl
  | _ => exact absurd hb List.not_mem_nil

theorem nodup_born (c : Call φ ν) : (c.born.map Graph.id).Nodup := by
  cases c <;> simp [born]

variable [Vertex φ ν]

/-- The identifiers handed out by graph `γ`, in the order in which the answer names them. -/
def handsOut (c : Call φ ν) (γ : GraphId) : List NodeId :=
  c.issued.filterMap fun e => if e.1 = γ then some e.2 else none

variable {c : Call φ ν} {g h : Graph ν} {γ : GraphId} {ks : List NodeId}

/-- The graph that the answer is about ages by the identifiers that it names. -/
theorem ages_of_issued (hissued : c.issued = ks.map fun k => (h.id, k))
    (hages : Graph.Ages g ks h) : Graph.Ages g (c.handsOut g.id) h := by
  have hks : c.handsOut g.id = ks := by
    rw [handsOut, hissued, List.filterMap_map, hages.id_eq]
    simp
  rwa [hks]

/-- Other graphs hand out nothing. -/
theorem ages_of_ne (hissued : c.issued = ks.map fun k => (γ, k)) (hne : γ ≠ g.id)
    (hages : Graph.Ages g [] h) : Graph.Ages g (c.handsOut g.id) h := by
  have hnil : c.handsOut g.id = [] := by
    rw [handsOut, hissued, List.filterMap_map]
    simp [hne]
  rwa [hnil]

/-- No graph hands out identifiers if none are named. -/
theorem ages_of_silent (hissued : c.issued = []) (hages : Graph.Ages g [] h) :
    Graph.Ages g (c.handsOut g.id) h := by
  rwa [handsOut, hissued]

theorem ages_of_remnant (hissued : c.issued = []) (hr : Graph.Remnant g h) :
    Graph.Ages g (c.handsOut g.id) h :=
  ages_of_silent hissued (.remnant hr)

theorem ages_filled {t : Transfer ν} (hages : Graph.Ages g (c.handsOut g.id) t.dest) :
    List.SublistForall₂ (fun h a => Graph.Ages a (c.handsOut a.id) h) t.filled [g] := by
  unfold Transfer.filled
  split
  · exact .cons hages .nil
  · exact .nil

/-- Every graph that a call takes ages by the identifiers that it hands out meanwhile, and so does
one that is made; some are given up. -/
theorem accounts (hbounded : ∀ g ∈ c.takes, g.Bounded)
    (hdistinct : (c.grounds.map Graph.id).Nodup) :
    List.SublistForall₂ (fun h a => Graph.Ages a (c.handsOut a.id) h) c.leaves c.grounds := by
  cases c with
  | insert g v => exact .cons (ages_of_issued rfl (.insert (hbounded g (.head _)) v)) .nil
  | insertCopy g v =>
    exact .cons (ages_of_issued rfl (.insert (hbounded g (.head _)) (Vertex.copy v))) .nil
  | connect g d p q =>
    exact .cons (ages_of_remnant rfl (g.refitted_connect d p q).toRemnant) .nil
  | link g l =>
    exact .cons (ages_of_remnant rfl (g.refitted_connect .outgoing l.output l.input).toRemnant) .nil
  | disconnect g d p q =>
    exact .cons (ages_of_remnant rfl (g.refitted_disconnect d p q).toRemnant) .nil
  | disconnectAll g d p =>
    exact .cons (ages_of_remnant rfl (g.refitted_disconnectAll d p).toRemnant) .nil
  | erase g id => exact .cons (ages_of_remnant rfl (g.remnant_erase id)) .nil
  | release g id => exact .cons (ages_of_remnant rfl (g.remnant_release id)) .nil
  | clear g => exact .cons (ages_of_remnant rfl g.remnant_clear) .nil
  | retain g keep s => exact .cons (ages_of_remnant rfl (g.remnant_retain keep s)) .nil
  | modify g id f =>
    have hissued : (Call.modify g id f).issued = [] := by
      change (Outcome.named (fun _ => []) (g.modify id fun v => pure (f v, ())).val.2).map _ = _
      cases (g.modify id fun v => pure (f v, ())).val.2 <;> rfl
    exact .cons (ages_of_silent hissued (.modify g id _)) .nil
  | modifyEach g f s =>
    exact .cons (ages_of_silent rfl (.modifyEach g (fun s id v => pure (f s id v)) s)) .nil
  | sort g d => exact .cons (ages_of_remnant rfl (.refl g)) .nil
  | new id => exact .cons (ages_of_remnant rfl (.refl _)) .nil
  | clone g id =>
    exact .cons (ages_of_remnant rfl (.refl g)) (.cons (ages_of_silent rfl (.clone g id)) .nil)
  | copyInto source dest =>
    have hdest := Graph.Ages.copyInto (hbounded dest (.tail _ (.head _))) source
    have hne : dest.id ≠ source.id := by simpa [grounds, takes, born, eq_comm] using hdistinct
    rw [← hdest.id_eq] at hne
    exact .cons (ages_of_ne rfl hne (.refl source)) (.cons (ages_of_issued rfl hdest) .nil)
  | moveInto source dest =>
    obtain ⟨hsource, hdest⟩ := Graph.Ages.moveInto source (hbounded dest (.tail _ (.head _)))
    have hne : dest.id ≠ source.id := by simpa [grounds, takes, born, eq_comm] using hdistinct
    rw [← hdest.id_eq] at hne
    exact .cons (ages_of_ne rfl hne hsource) (.cons (ages_of_issued rfl hdest) .nil)
  | releaseInto source subset dest =>
    obtain ⟨hsource, hdest⟩ :=
      Graph.Ages.releaseInto source (hbounded dest (.tail _ (.head _))) subset
    have hne : dest.id ≠ source.id := by simpa [grounds, takes, born, eq_comm] using hdistinct
    rw [← hdest.id_eq] at hne
    exact .cons (ages_of_ne rfl hne hsource) (.cons (ages_of_issued rfl hdest) .nil)
  | releaseSet source subset id =>
    have hempty : (Graph.empty id : Graph ν).Bounded := Graph.bounded_of_vertices_eq_empty rfl
    obtain ⟨hsource, hdest⟩ := Graph.Ages.releaseInto source hempty subset
    have hne : (Graph.empty id : Graph ν).id ≠ source.id := by
      simpa [grounds, takes, born, eq_comm] using hdistinct
    rw [← hdest.id_eq] at hne
    exact .cons (ages_of_ne rfl hne hsource) (ages_filled (ages_of_issued rfl hdest))
  | dissolve g => exact .nil
  | discard g => exact .nil

/-- No identity comes back that was not there before. -/
theorem ids_leaves (hbounded : ∀ g ∈ c.takes, g.Bounded)
    (hdistinct : (c.grounds.map Graph.id).Nodup) :
    (c.leaves.map Graph.id).Sublist (c.grounds.map Graph.id) := by
  have haccounts := accounts hbounded hdistinct
  generalize c.leaves = hs at haccounts
  generalize c.grounds = as at haccounts
  induction haccounts with
  | nil => exact List.nil_sublist _
  | cons hages _ ih =>
    rw [List.map_cons, List.map_cons, hages.id_eq]
    exact ih.cons_cons _
  | cons_right _ ih => exact ih.cons _

/-- Every graph that comes back is one that the call started from, aged. -/
theorem exists_ground (hbounded : ∀ g ∈ c.takes, g.Bounded)
    (hdistinct : (c.grounds.map Graph.id).Nodup) (hh : h ∈ c.leaves) :
    ∃ a ∈ c.grounds, Graph.Ages a (c.handsOut a.id) h := by
  have haccounts := accounts hbounded hdistinct
  generalize c.leaves = hs at haccounts hh
  generalize c.grounds = as at haccounts
  induction haccounts with
  | nil => cases hh
  | cons hages _ ih =>
    rcases List.mem_cons.mp hh with rfl | hh
    · exact ⟨_, .head _, hages⟩
    · obtain ⟨a, ha, hages⟩ := ih hh
      exact ⟨a, .tail _ ha, hages⟩
  | cons_right _ ih =>
    obtain ⟨a, ha, hages⟩ := ih hh
    exact ⟨a, .tail _ ha, hages⟩

/-- A graph that hands out identifiers is put back. -/
theorem exists_leaf_of_issued {e : GraphId × NodeId} (he : e ∈ c.issued) :
    ∃ h ∈ c.leaves, h.id = e.1 := by
  cases c with
  | insert g v | insertCopy g v | modify g id f =>
    obtain ⟨k, _, rfl⟩ := List.mem_map.mp he
    exact ⟨_, .head _, rfl⟩
  | copyInto source dest | moveInto source dest | releaseInto source subset dest =>
    obtain ⟨k, _, rfl⟩ := List.mem_map.mp he
    exact ⟨_, .tail _ (.head _), rfl⟩
  | releaseSet source subset id =>
    obtain ⟨k, hk, rfl⟩ := List.mem_map.mp he
    refine ⟨_, .tail _ ?_, rfl⟩
    unfold Transfer.filled
    cases hanswer : (source.releaseSet subset id).val.answer with
    | ok names => exact .head _
    | error e =>
      rw [hanswer] at hk
      cases hk
  | _ => exact absurd he List.not_mem_nil

theorem exists_leaf_of_mem {k : NodeId} (hk : k ∈ c.handsOut γ) : ∃ h ∈ c.leaves, h.id = γ := by
  obtain ⟨e, he, hek⟩ := List.mem_filterMap.mp hk
  have heγ : e.1 = γ := by
    by_contra hne
    rw [if_neg hne] at hek
    cases hek
  obtain ⟨h, hh, hid⟩ := exists_leaf_of_issued he
  exact ⟨h, hh, hid.trans heγ⟩

/-- The identifiers that a graph hands out follow its counter. -/
theorem exists_issuer (hbounded : ∀ g ∈ c.takes, g.Bounded)
    (hdistinct : (c.grounds.map Graph.id).Nodup) {k : NodeId} (hk : k ∈ c.handsOut γ) :
    ∃ a ∈ c.grounds, a.id = γ ∧ a.next ≤ k := by
  obtain ⟨h, hh, rfl⟩ := exists_leaf_of_mem hk
  obtain ⟨a, ha, hages⟩ := exists_ground hbounded hdistinct hh
  rw [hages.id_eq] at hk
  exact ⟨a, ha, hages.id_eq.symm, (hages.between hk).1⟩

/-- The identifiers that a graph hands out in one call are in order. -/
theorem ascending_handsOut (hbounded : ∀ g ∈ c.takes, g.Bounded)
    (hdistinct : (c.grounds.map Graph.id).Nodup) (γ : GraphId) :
    (c.handsOut γ).Pairwise (· < ·) := by
  cases hks : c.handsOut γ with
  | nil => exact .nil
  | cons k ks =>
    obtain ⟨h, hh, hid⟩ := exists_leaf_of_mem (hks ▸ .head ks : k ∈ c.handsOut γ)
    obtain ⟨a, _, hages⟩ := exists_ground hbounded hdistinct hh
    have hascending := hages.ascending
    rwa [← hages.id_eq, hid, hks] at hascending

end Call

end PortGraph
