import PortGraph.Proofs.Severing

/-!
# Removing vertices

A vertex leaves a graph after all of its connections were removed. What this makes of a consistent
graph is the same whether the vertex is destroyed or handed out, and whether one vertex goes or many
of them, one after the other. `Excision g h gone` says that `h` is `g` without the vertices `gone`:
these are no longer stored, no list of opposites names them, and nothing else is different.

Excisions follow each other (`Excision.trans`) and keep graphs consistent
(`Excision.consistent`). `erase`, `release` and `retain` are excisions on consistent graphs.
-/

namespace PortGraph.Graph

variable {φ : Flavour} {ν : Type} [Vertex φ ν]

/-! ## Excisions -/

/-- `h` is `g` without the vertices `gone` and all of their connections. -/
structure Excision (g h : Graph ν) (gone : NodeId → Bool) : Prop where
  id_eq : h.id = g.id
  next_eq : h.next = g.next
  vertices (k : NodeId) :
    Option.Rel Vertex.Rewired (if gone k = true then none else g.find? k) (h.find? k)
  peers (d : Direction) (s : Slot) :
    h.peers d s =
      if gone s.node = true then [] else (g.peers d s).filter fun t => !gone t.node

namespace Excision

variable {f g h : Graph ν} {gone lost : NodeId → Bool}

/-- A vertex that is gone is not stored. -/
theorem find?_eq_none (he : Excision g h gone) {k : NodeId} (hk : gone k = true) :
    h.find? k = none := by
  have hv := he.vertices k
  rw [if_pos hk] at hv
  exact eq_none_of_rel_none hv

/-- A vertex that stays is rewired. -/
theorem vertices_of_stays (he : Excision g h gone) {k : NodeId} (hk : gone k = false) :
    Option.Rel Vertex.Rewired (g.find? k) (h.find? k) := by
  have hv := he.vertices k
  rwa [if_neg (by simp [hk])] at hv

/-- Exactly the vertices that stay are stored. -/
theorem contains_eq (he : Excision g h gone) (k : NodeId) :
    h.contains k = (g.contains k && !gone k) := by
  change (h.find? k).isSome = ((g.find? k).isSome && !gone k)
  cases hk : gone k with
  | true => rw [he.find?_eq_none hk]; simp
  | false => rw [isSome_eq_of_rel (he.vertices_of_stays hk), Bool.not_false, Bool.and_true]

theorem refl (hg : g.Consistent) (hgone : ∀ k, gone k = true → g.find? k = none) :
    Excision g g gone where
  id_eq := rfl
  next_eq := rfl
  vertices k := by
    cases hk : gone k with
    | true => rw [hgone k hk]; exact .none
    | false => exact (Rewired.refl g).vertices k
  peers d s := by
    by_cases hs : gone s.node = true
    · rw [if_pos hs, peers_eq_nil_of_find? (hgone _ hs)]
    · have hstays : ∀ t ∈ g.peers d s, (!gone t.node) = true := by
        intro t ht
        obtain ⟨v, hv⟩ := (hg.hasPort ht).exists_find?
        cases hk : gone t.node with
        | true => rw [hgone _ hk] at hv; cases hv
        | false => rfl
      rw [if_neg hs, List.filter_eq_self.mpr hstays]

/-- Removing some vertices and then others is removing all of them. -/
theorem trans (hfg : Excision f g gone) (hgh : Excision g h lost) :
    Excision f h fun k => gone k || lost k where
  id_eq := hgh.id_eq.trans hfg.id_eq
  next_eq := hgh.next_eq.trans hfg.next_eq
  vertices k := by
    cases hl : lost k with
    | true => rw [hgh.find?_eq_none hl, Bool.or_true]; exact .none
    | false =>
      have hgh' := hgh.vertices_of_stays hl
      cases hk : gone k with
      | true =>
        rw [hfg.find?_eq_none hk] at hgh'
        exact hgh'
      | false =>
        have hfg' := hfg.vertices_of_stays hk
        exact Vertex.Rewired.option_trans hfg' hgh'
  peers d s := by
    rw [hgh.peers, hfg.peers]
    cases hl : lost s.node with
    | true => simp
    | false =>
      cases hk : gone s.node with
      | true => simp
      | false => simp [List.filter_filter, Bool.and_comm]

/-- Removing one vertex and then those of a list is removing those of a longer list. -/
theorem cons {id : NodeId} {ids : List NodeId} (hfirst : Excision f g fun k => k = id)
    (hrest : Excision g h ids.contains) : Excision f h (id :: ids).contains := by
  have hgone : (fun k => decide (k = id) || ids.contains k) = (id :: ids).contains := by
    funext k
    simp
  rw [← hgone]
  exact hfirst.trans hrest

/-- Removing vertices keeps a graph consistent. -/
theorem consistent (he : Excision g h gone) (hg : g.Consistent) : h.Consistent := by
  -- the entries for a vertex that is gone are dropped at the other end
  have hdrop (e : Direction) (x y : Slot) (hy : gone y.node = true) :
      ((g.peers e x).filter fun t => !gone t.node).count y = 0 := by
    apply List.count_eq_zero.mpr
    intro hmem
    have hstays := (List.mem_filter.mp hmem).2
    rw [hy] at hstays
    cases hstays
  apply consistent_iff.mpr
  intro d s t
  rw [he.peers, he.peers]
  cases hs : gone s.node with
  | true =>
    cases ht : gone t.node with
    | true => simp
    | false => simpa using (hdrop d.opposite t s hs).symm
  | false =>
    cases ht : gone t.node with
    | true => simpa using hdrop d s t ht
    | false =>
      have hcount := hg.count_comm d s t
      simpa [List.count_filter, hs, ht] using hcount

end Excision

/-! ## Erasing and releasing -/

variable [LawfulPorts φ ν]

omit [LawfulPorts φ ν] in
/-- Dropping a vertex from the store leaves the others. -/
theorem find?_drop (g : Graph ν) (id k : NodeId) :
    ({ g with vertices := g.vertices.erase id } : Graph ν).find? k =
      if k = id then none else g.find? k :=
  IdMap.get?_erase g.vertices id k

omit [LawfulPorts φ ν] in
/-- The graph after a stored vertex was erased. -/
theorem val_erase_of_contains {g : Graph ν} {id : NodeId} (h : g.contains id = true) :
    (g.erase id).val.1 =
      { (g.severWhere id fun _ => false).val with
        vertices := (g.severWhere id fun _ => false).val.vertices.erase id } := by
  rw [erase, if_pos h]
  rfl

omit [LawfulPorts φ ν] in
/-- Erasing an unknown vertex changes nothing. -/
theorem val_erase_of_not_contains {g : Graph ν} {id : NodeId} (h : ¬g.contains id = true) :
    (g.erase id).val.1 = g := by
  rw [erase, if_neg h]
  rfl

/-- Erasing a vertex of a consistent graph removes it with all of its connections. -/
theorem excision_erase {g : Graph ν} (hg : g.Consistent) (id : NodeId) :
    Excision g (g.erase id).val.1 (fun k => k = id) := by
  by_cases h : g.contains id = true
  · have hr := rewired_severWhere hg id fun _ => false
    have hpeers := peers_severWhere hg id fun _ => false
    rw [val_erase_of_contains h]
    generalize (g.severWhere id fun _ => false).val = f at hr hpeers
    refine ⟨hr.id_eq, hr.next_eq, ?_, ?_⟩
    · intro k
      rw [find?_drop]
      by_cases hk : k = id
      · simp [hk]
      · simpa [hk] using hr.vertices k
    · intro d s
      by_cases hs : s.node = id
      · rw [peers_eq_nil_of_find? (by rw [find?_drop, if_pos hs])]
        simp [hs]
      · have hfind : ({ f with vertices := f.vertices.erase id } : Graph ν).find? s.node =
            f.find? s.node := by
          rw [find?_drop, if_neg hs]
        have hsevers (t : Slot) :
            severs id (fun _ => false) (.between d s t) = decide (t.node = id) := by
          rw [severs_eq_touches, Bool.eq_iff_iff, Link.touches_iff d, Link.side_between,
            Link.side_opposite_between, decide_eq_true_iff]
          exact or_iff_right hs
        rw [peers_congr (port?_congr hfind), hpeers]
        simp [hs, hsevers]
  · rw [val_erase_of_not_contains h]
    refine .refl hg ?_
    intro k hk
    rw [of_decide_eq_true hk]
    exact not_contains_iff.mp h

/-- Releasing a vertex leaves the same graph as erasing it. -/
theorem val_release (g : Graph ν) (id : NodeId) (hg : g.Consistent) :
    (g.release id).val.1 = (g.erase id).val.1 := by
  by_cases h : g.contains id = true
  · have hr := rewired_severWhere hg id fun _ => false
    obtain ⟨v, hv⟩ := contains_iff.mp ((hr.contains_eq id).trans h)
    rw [val_erase_of_contains h, release, if_pos h]
    simp only [Journaled.val_bind, unbind, hv]
    rfl
  · rw [val_erase_of_not_contains h, release, if_neg h]
    rfl

/-! ## Retaining -/

/-- Erasing vertices one after the other removes all of them. -/
theorem excision_foldl_erase {g : Graph ν} (hg : g.Consistent) (ids : List NodeId) :
    Excision g (ids.foldl (fun g id => (g.erase id).val.1) g) ids.contains := by
  induction ids generalizing g with
  | nil => exact .refl hg fun k hk => by simp at hk
  | cons id ids ih =>
    have hfirst := excision_erase hg id
    exact hfirst.cons (ih (hfirst.consistent hg))

omit [LawfulPorts φ ν] in
/-- Retaining vertices erases those that are rejected one after the other. -/
theorem val_retain {σ : Type} (g : Graph ν) (keep : NodeId → ν → StateM σ Bool) (s : σ) :
    (g.retain keep s).val.1 =
      ((g.rejected keep).run s).1.foldl (fun g id => (g.erase id).val.1) g := by
  unfold retain
  generalize (g.rejected keep).run s = asked
  obtain ⟨doomed, s'⟩ := asked
  exact Journaled.val_foldlM _ _ _

/-- Retaining vertices removes those that are rejected. -/
theorem excision_retain {σ : Type} {g : Graph ν} (hg : g.Consistent)
    (keep : NodeId → ν → StateM σ Bool) (s : σ) :
    Excision g (g.retain keep s).val.1 ((g.rejected keep).run s).1.contains := by
  rw [val_retain]
  exact excision_foldl_erase hg _

/-! ## Clearing -/

omit [LawfulPorts φ ν] in
/-- A graph without vertices lists no opposites. -/
theorem peers_of_vertices_eq_empty {g : Graph ν} (h : g.vertices = .empty) (d : Direction)
    (s : Slot) : g.peers d s = [] :=
  peers_eq_nil_of_find? (by rw [find?, h]; rfl)

omit [LawfulPorts φ ν] in
/-- A graph without vertices is consistent. -/
theorem consistent_of_vertices_eq_empty {g : Graph ν} (h : g.vertices = .empty) : g.Consistent :=
  consistent_of_peers_eq_nil (peers_of_vertices_eq_empty h)

end PortGraph.Graph
