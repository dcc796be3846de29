import PortGraph.Proofs.Moving

/-!
# Moving all vertices, or some

`moveInto_eq` and `releaseInto_eq` say what the two transfers come to. Moving takes every vertex
along. Releasing first severs the vertices to be moved from those that stay, so that what stays is
the source without the others, an excision.
-/

namespace PortGraph.Graph

variable {φ : Flavour} {ν : Type} [Vertex φ ν]

/-! ## Moving all vertices -/

/-- Moving takes every vertex of the source along; the source is left empty. -/
theorem moveInto_eq (source : Graph ν) {dest : Graph ν} (hdest : dest.Bounded) :
    ∃ h names, (source.moveInto dest).val =
        ⟨{ source with vertices := .empty }, h.relink names, .ok names⟩ ∧
      Enrolled dest (source.movers source.ids) h names := by
  have hids : source.ids.Pairwise (· < ·) := source.vertices.pairwise_keys
  refine ⟨_, _, ?_, enrolled_enrol hdest (source.pairwise_movers hids)⟩
  have hcarry := val_carry source hdest .empty source.vertices.nodup_keys
  change (source.carry dest .empty source.ids).val = _ at hcarry
  rw [moveInto]
  simp only [Journaled.val_bind, hcarry]
  rfl

/-! ## Moving some vertices -/

variable [LawfulPorts φ ν]

/-- The link joins a vertex of the set to one outside. -/
def crosses (subset : List NodeId) (l : Link) : Bool :=
  subset.contains l.output.node != subset.contains l.input.node

/-- A link that crosses has one end in the set, whichever is named first. -/
theorem crosses_eq (subset : List NodeId) (d : Direction) (l : Link) :
    crosses subset l =
      (subset.contains (l.side d).node != subset.contains (l.side d.opposite).node) := by
  cases d with
  | incoming => exact bne_comm
  | outgoing => rfl

/-- Severing vertices one after the other removes the links that any of these severs. -/
theorem foldl_severWhere {g : Graph ν} (hg : g.Consistent) (ids : List NodeId)
    (keep : NodeId → Bool) :
    Rewired g (ids.foldl (fun g id => (g.severWhere id keep).val) g) ∧
      (ids.foldl (fun g id => (g.severWhere id keep).val) g).Consistent ∧
      ∀ d s, (ids.foldl (fun g id => (g.severWhere id keep).val) g).peers d s =
        (g.peers d s).filter fun t => !ids.any fun id => severs id keep (.between d s t) := by
  induction ids generalizing g with
  | nil => exact ⟨.refl g, hg, fun d s => (List.filter_eq_self.mpr fun _ _ => rfl).symm⟩
  | cons id rest ih =>
    have hfirst := hg.severWhere id keep
    obtain ⟨hrest, hcons, hpeers⟩ := ih hfirst
    refine ⟨(rewired_severWhere hg id keep).trans hrest, hcons, ?_⟩
    intro d s
    rw [List.foldl_cons, hpeers, peers_severWhere hg, List.filter_filter]
    apply List.filter_congr
    intro t _
    rw [List.any_cons, Bool.not_or, Bool.and_comm]

/-- The vertices of the set, in ascending order. -/
def chosen (g : Graph ν) (subset : List NodeId) : List NodeId := g.ids.filter subset.contains

/-- The graph after the vertices of the set were severed from all others. -/
def severed (g : Graph ν) (subset : List NodeId) : Graph ν :=
  (g.chosen subset).foldl (fun g id => (g.severWhere id subset.contains).val) g

theorem rewired_severed {g : Graph ν} (hg : g.Consistent) (subset : List NodeId) :
    Rewired g (g.severed subset) :=
  (foldl_severWhere hg _ _).1

theorem Consistent.severed {g : Graph ν} (hg : g.Consistent) (subset : List NodeId) :
    (g.severed subset).Consistent :=
  (foldl_severWhere hg _ _).2.1

omit [Vertex φ ν] [LawfulPorts φ ν] in
/-- The vertices chosen are the stored ones of the set. -/
theorem mem_chosen_iff {g : Graph ν} {subset : List NodeId} {k : NodeId} :
    k ∈ g.chosen subset ↔ g.contains k = true ∧ k ∈ subset := by
  have hkeys : k ∈ g.ids ↔ g.contains k = true := IdMap.mem_keys_iff
  rw [chosen, List.mem_filter, hkeys, List.contains_iff_mem]

omit [Vertex φ ν] [LawfulPorts φ ν] in
/-- Vertices of the set that are all stored are all chosen. -/
theorem contains_chosen {g : Graph ν} {subset : List NodeId}
    (hsub : ∀ k ∈ subset, g.contains k = true) (k : NodeId) :
    (g.chosen subset).contains k = subset.contains k := by
  rw [Bool.eq_iff_iff, List.contains_iff_mem, List.contains_iff_mem, mem_chosen_iff]
  exact ⟨fun h => h.2, fun h => ⟨hsub k h, h⟩⟩

/-- A link between stored vertices is severed if it crosses. -/
theorem any_severs_iff {g : Graph ν} {subset : List NodeId} {l : Link}
    (hl : ∀ d, g.contains (l.side d).node = true) :
    (g.chosen subset).any (fun id => severs id subset.contains l) = crosses subset l := by
  rw [Bool.eq_iff_iff, List.any_eq_true]
  constructor
  · rintro ⟨id, hid, hsevers⟩
    obtain ⟨d, hnode, hout⟩ := severs_iff.mp hsevers
    have hsub : subset.contains (l.side d).node = true := by
      rw [hnode]
      exact List.contains_iff_mem.mpr (mem_chosen_iff.mp hid).2
    rw [crosses_eq subset d, hsub, hout]
    rfl
  · intro hcross
    -- the end in the set is that of a chosen vertex
    have hend (d : Direction) (hsub : subset.contains (l.side d).node = true)
        (hout : subset.contains (l.side d.opposite).node = false) :
        ∃ id ∈ g.chosen subset, severs id subset.contains l = true :=
      ⟨(l.side d).node, mem_chosen_iff.mpr ⟨hl d, List.contains_iff_mem.mp hsub⟩,
        severs_iff.mpr ⟨d, rfl, hout⟩⟩
    cases hin : subset.contains (l.side .incoming).node with
    | true =>
      rw [crosses_eq subset .incoming, hin] at hcross
      exact hend .incoming hin (by simpa using hcross)
    | false =>
      rw [crosses_eq subset .incoming, hin, Direction.opposite] at hcross
      exact hend .outgoing (by simpa using hcross) hin

/-- Severing removes exactly the links that cross. -/
theorem peers_severed {g : Graph ν} (hg : g.Consistent) (subset : List NodeId) (d : Direction)
    (s : Slot) :
    (g.severed subset).peers d s =
      (g.peers d s).filter fun t => !crosses subset (.between d s t) := by
  have hpeers := (foldl_severWhere hg (g.chosen subset) subset.contains).2.2 d s
  rw [severed, hpeers]
  apply List.filter_congr
  intro t ht
  have hnear := contains_iff.mpr (hasPort_of_mem_peers ht).exists_find?
  have hfar := contains_iff.mpr (hg.hasPort ht).exists_find?
  rw [any_severs_iff (g := g)]
  refine Direction.forall_of_opposite
    (p := fun e => g.contains ((Link.between d s t).side e).node = true) d ?_ ?_
  · rwa [Link.side_between]
  · rwa [Link.side_opposite_between]

/-- What stays of the source is the source without the vertices of the set. -/
theorem excision_severed {g : Graph ν} (hg : g.Consistent) {subset : List NodeId}
    (hsub : ∀ k ∈ subset, g.contains k = true) :
    Excision g ((g.severed subset).without (g.chosen subset)) subset.contains := by
  have hr := rewired_severed hg subset
  have hchosen := contains_chosen hsub
  have hfind (k : NodeId) := find?_without (g.severed subset) (g.chosen subset) k
  refine ⟨hr.id_eq, hr.next_eq, ?_, ?_⟩
  · intro k
    rw [hfind, hchosen]
    cases hk : subset.contains k with
    | true => exact .none
    | false => simpa using hr.vertices k
  · intro d s
    cases hs : subset.contains s.node with
    | true =>
      have hnone := hfind s.node
      rw [hchosen, hs] at hnone
      rw [peers_eq_nil_of_find? hnone]
      rfl
    | false =>
      have hstays := hfind s.node
      rw [hchosen, hs] at hstays
      rw [peers_congr (port?_congr hstays), peers_severed hg]
      apply List.filter_congr
      intro t _
      rw [crosses_eq subset d, Link.side_between, Link.side_opposite_between, hs]
      simp

omit [LawfulPorts φ ν] in
/-- Releasing takes along the vertices of the set, after they were severed from all others. -/
theorem enrolled_releaseInto (source : Graph ν) {dest : Graph ν} (hdest : dest.Bounded)
    {subset : List NodeId} (hsub : ∀ k ∈ subset, source.contains k = true) :
    ∃ h names, (source.releaseInto subset dest).val =
        ⟨(source.severed subset).without (source.chosen subset), h.relink names, .ok names⟩ ∧
      Enrolled dest ((source.severed subset).movers (source.chosen subset)) h names := by
  have hchosen : (source.chosen subset).Pairwise (· < ·) :=
    source.vertices.pairwise_keys.sublist List.filter_sublist
  have hnodup : (source.chosen subset).Nodup :=
    source.vertices.nodup_keys.sublist List.filter_sublist
  have hmissing : (subset.filter fun id => !source.contains id).min? = none := by
    rw [List.min?_eq_none_iff, List.filter_eq_nil_iff]
    intro k hk
    simp [hsub k hk]
  refine ⟨_, _, ?_, enrolled_enrol hdest ((source.severed subset).pairwise_movers hchosen)⟩
  rw [releaseInto, hmissing]
  simp only [Journaled.val_bind, Journaled.val_foldlM]
  have hcarry := val_carry (source.severed subset) hdest .empty hnodup
  unfold severed chosen at hcarry
  rw [hcarry]
  rfl

/-- In a consistent graph these are exactly the vertices of the set. -/
theorem releaseInto_eq {source dest : Graph ν} (hg : source.Consistent) (hdest : dest.Bounded)
    {subset : List NodeId} (hsub : ∀ k ∈ subset, source.contains k = true) :
    ∃ h names, (source.releaseInto subset dest).val =
        ⟨(source.severed subset).without (source.chosen subset), h.relink names, .ok names⟩ ∧
      Enrolled dest ((source.severed subset).movers (source.chosen subset)) h names ∧
      ∀ k, (∃ a, names.get? k = some a) ↔ k ∈ subset := by
  obtain ⟨h, names, hval, hen⟩ := source.enrolled_releaseInto hdest hsub
  refine ⟨h, names, hval, hen, fun k => ?_⟩
  rw [hen.exists_name_iff, (rewired_severed hg subset).contains_eq, mem_chosen_iff]
  exact ⟨fun h => h.1.2, fun h => ⟨⟨hsub k h, h⟩, hsub k h⟩⟩

omit [LawfulPorts φ ν] in
/-- If a vertex of the set is missing, nothing is moved, and the answer names the smallest one. -/
theorem releaseInto_of_missing {source : Graph ν} (dest : Graph ν) {subset : List NodeId}
    (hsub : ¬∀ k ∈ subset, source.contains k = true) :
    ∃ k ∈ subset, ¬source.contains k = true ∧
      (∀ j ∈ subset, ¬source.contains j = true → k ≤ j) ∧ (source.releaseInto subset dest).val =
        ⟨source, dest, .error (.migrationTargetNotInSource k)⟩ := by
  cases hm : (subset.filter fun id => !source.contains id).min? with
  | some k =>
    obtain ⟨hk, hleast⟩ := List.min?_eq_some_iff.mp hm
    obtain ⟨hmem, hmissing⟩ := List.mem_filter.mp hk
    refine ⟨k, hmem, by simpa using hmissing, fun j hj hj' => ?_, ?_⟩
    · exact hleast j (List.mem_filter.mpr ⟨hj, by simpa using hj'⟩)
    · rw [releaseInto, hm]
      rfl
  | none =>
    rw [List.min?_eq_none_iff, List.filter_eq_nil_iff] at hm
    exact absurd (fun k hk => by simpa using hm k hk) hsub

omit [LawfulPorts φ ν] in
/-- Nothing else goes wrong. -/
theorem releaseInto_error {source dest : Graph ν} (hdest : dest.Bounded) {subset : List NodeId}
    {e : GraphError} (he : (source.releaseInto subset dest).val.answer = .error e) :
    ∃ k, e = .migrationTargetNotInSource k := by
  by_cases hsub : ∀ k ∈ subset, source.contains k = true
  · obtain ⟨h, names, hval, _⟩ := source.enrolled_releaseInto hdest hsub
    rw [hval] at he
    cases he
  · obtain ⟨k, _, _, _, hval⟩ := releaseInto_of_missing dest hsub
    rw [hval] at he
    exact ⟨k, (Except.error.inj he).symm⟩

end PortGraph.Graph
