import PortGraph.Operator
import PortGraph.Proofs.Revising
import PortGraph.Proofs.Storing

/-!
# What a revision changes

`Revised g id u h` says all there is to say about a graph `h` in which vertex `id` of `g` was
revised to `u`: how many connections of each link there are, what is left of the lists of the other
vertices and in which order, and that nothing else is different. `revised_modify` shows that
`modify` comes to this on every consistent graph and for every function. So revising one vertex, or
one after the other, keeps a graph consistent.
-/

namespace PortGraph.Graph

variable {φ : Flavour} {ν ρ : Type} [Vertex φ ν]

/-! ## The result of a revision -/

/-- What became of `g` when its vertex `id` was revised, where `u` is the revised vertex after it
was bound again. -/
structure Revised (g : Graph ν) (id : NodeId) (u : ν) (h : Graph ν) : Prop where
  id_eq : h.id = g.id
  next_eq : h.next = g.next
  ids_eq : h.ids = g.ids
  /-- The revised vertex is bound to its place. Nothing but the opposites of its ports changed. -/
  vertex : ∃ w, h.find? id = some w ∧ Vertex.membership w = some ⟨g.id, id⟩ ∧ Vertex.Rewired u w
  /-- Both ends of every connection agree on it. -/
  consistent : h.Consistent
  /-- Of a link with one end at the vertex as many are left as there were and as the vertex still
  records. -/
  multiplicity_of_one_end {d : Direction} {l : Link} (hnear : (l.side d).node = id)
    (hfar : (l.side d.opposite).node ≠ id) :
    h.multiplicity l = min (g.multiplicity l) ((Vertex.links d id u).count l)
  /-- Of a loop as many are left as there were and as the vertex still records at either end. -/
  multiplicity_of_loop {l : Link} (hout : l.output.node = id) (hin : l.input.node = id) :
    h.multiplicity l = min (g.multiplicity l)
      (min ((Vertex.links .incoming id u).count l) ((Vertex.links .outgoing id u).count l))
  /-- Nothing but the opposites of their ports is different in the other vertices. -/
  others {k : NodeId} (hk : k ≠ id) : Option.Rel Vertex.Rewired (g.find? k) (h.find? k)
  membership_others {k : NodeId} (hk : k ≠ id) :
    (h.find? k).map Vertex.membership = (g.find? k).map Vertex.membership
  /-- Their ports only lost entries. -/
  sublist {d : Direction} {s : Slot} (hs : s.node ≠ id) : (h.peers d s).Sublist (g.peers d s)
  /-- What they list of other vertices than the revised one stays as it was. -/
  elsewhere {d : Direction} {s : Slot} (hs : s.node ≠ id) :
    ((h.peers d s).filter fun t => t.node ≠ id) = (g.peers d s).filter fun t => t.node ≠ id
  /-- Vertices that were not connected to the revised one are not touched. -/
  unlinked {k : NodeId} (hk : k ≠ id) (hfree : ∀ d i, ∀ t ∈ g.peers d ⟨k, i⟩, t.node ≠ id) :
    h.find? k = g.find? k

namespace Repaired

variable {g h : Graph ν} {id : NodeId} {u : ν} {kept lost : List Link}

/-- At either end, a link that was kept or lost counts as often as it was kept. -/
theorem count_of_settled (hr : Repaired g id u kept lost h) (hg : g.Consistent) {l : Link}
    (htotal : kept.count l + lost.count l = g.multiplicity l) (d : Direction) :
    (h.peers d (l.side d)).count (l.side d.opposite) = kept.count l := by
  by_cases hnear : (l.side d).node = id
  · rw [hr.peers hnear, Link.count_farEnds, Link.between_side]
  · rw [hr.count hnear, hg.count_peers, Link.between_side]
    omega

/-- A link elsewhere counts as often as before. -/
theorem count_of_not_touches (hr : Repaired g id u kept lost h) (hg : g.Consistent) {l : Link}
    (hl : ¬l.touches id = true) (hlost : ∀ m ∈ lost, m.touches id = true) (d : Direction) :
    (h.peers d (l.side d)).count (l.side d.opposite) = g.multiplicity l := by
  have hfar : (l.side d).node ≠ id := fun h => hl ((Link.touches_iff d).mpr (.inl h))
  have hzero : lost.count l = 0 := List.count_eq_zero.mpr fun hmem => hl (hlost l hmem)
  rw [hr.count hfar, hg.count_peers, Link.between_side, hzero, Nat.sub_zero]

/-- The ends of all links agree after a repair in which every link was either kept or lost. -/
theorem consistent (hr : Repaired g id u kept lost h) (hg : g.Consistent)
    (htotal : ∀ l, l.touches id = true → kept.count l + lost.count l = g.multiplicity l)
    (hlost : ∀ l ∈ lost, l.touches id = true) : h.Consistent := by
  apply consistent_iff.mpr
  intro d s t
  have hends {n : Nat} (hcount : ∀ e, (h.peers e ((Link.between d s t).side e)).count
      ((Link.between d s t).side e.opposite) = n) :
      (h.peers d s).count t = (h.peers d.opposite t).count s := by
    have hnear := hcount d
    have hfar := hcount d.opposite
    rw [Link.side_between, Link.side_opposite_between] at hnear
    rw [Direction.opposite_opposite, Link.side_between, Link.side_opposite_between] at hfar
    rw [hnear, hfar]
  by_cases hl : (Link.between d s t).touches id = true
  · exact hends (hr.count_of_settled hg (htotal _ hl))
  · exact hends (hr.count_of_not_touches hg hl hlost)

/-- The same identifiers are in use after a repair. -/
theorem ids_eq (hr : Repaired g id u kept lost h) (hid : g.contains id = true) : h.ids = g.ids := by
  apply IdMap.keys_congr
  intro k
  by_cases hk : k = id
  · obtain ⟨w, hw, _⟩ := hr.vertex
    obtain ⟨v, hv⟩ := contains_iff.mp hid
    change (h.find? k).isSome = (g.find? k).isSome
    rw [hk, hw, hv]
    rfl
  · exact isSome_eq_of_rel (hr.others hk)

/-- Where no link elsewhere is lost, what the other vertices list of each other stays. -/
theorem elsewhere (hr : Repaired g id u kept lost h) (hlost : ∀ l ∈ lost, l.touches id = true)
    {d : Direction} {s : Slot} (hs : s.node ≠ id) :
    ((h.peers d s).filter fun t => t.node ≠ id) = (g.peers d s).filter fun t => t.node ≠ id := by
  have hsub := (hr.sublist hs (d := d)).filter fun t => decide (t.node ≠ id)
  refine hsub.eq_of_length (List.Perm.length_eq (List.perm_iff_count.mpr fun t => ?_))
  by_cases ht : t.node = id
  · -- neither side lists the revised vertex
    have hdrop (xs : List Slot) : (xs.filter fun t => decide (t.node ≠ id)).count t = 0 := by
      apply List.count_eq_zero.mpr
      intro hmem
      exact of_decide_eq_true (List.mem_filter.mp hmem).2 ht
    rw [hdrop, hdrop]
  · have htouches : ¬(Link.between d s t).touches id = true := by
      rw [Link.touches_iff d, Link.side_between, Link.side_opposite_between]
      exact fun h => h.elim hs ht
    have hzero : lost.count (.between d s t) = 0 :=
      List.count_eq_zero.mpr fun hmem => htouches (hlost _ hmem)
    have hkeep : decide (t.node ≠ id) = true := decide_eq_true ht
    have hcount (xs : List Slot) :
        (xs.filter fun t => decide (t.node ≠ id)).count t = xs.count t :=
      List.count_filter (p := fun t : Slot => decide (t.node ≠ id)) hkeep
    rw [hcount, hcount, hr.count hs, hzero, Nat.sub_zero]

/-- Where only links that there were are lost, a vertex that was not connected to the revised one is
not touched. -/
theorem unlinked (hr : Repaired g id u kept lost h) (hg : g.Consistent)
    (hlost : ∀ l ∈ lost, l.touches id = true ∧ 0 < g.multiplicity l) {k : NodeId} (hk : k ≠ id)
    (hfree : ∀ d i, ∀ t ∈ g.peers d ⟨k, i⟩, t.node ≠ id) : h.find? k = g.find? k := by
  apply hr.untouched hk
  intro l hl d hd
  obtain ⟨htouches, hpos⟩ := hlost l hl
  -- a lost link was listed at its far end
  have hmem : l.side d.opposite ∈ g.peers d (l.side d) := by
    rw [← List.count_pos_iff, hg.count_peers, Link.between_side]
    exact hpos
  have hslot : l.side d = ⟨k, (l.side d).offset⟩ := by rw [← hd]
  rw [hslot] at hmem
  rcases (Link.touches_iff d).mp htouches with hid | hid
  · exact hk (hd.symm.trans hid)
  · exact hfree d _ _ hmem hid

end Repaired

/-! ## Revising one vertex -/

variable [LawfulPorts φ ν]

omit [LawfulPorts φ ν] in
/-- A link with one end at the vertex counts as often as it is recorded there. -/
theorem recorded_of_one_end {id : NodeId} {d : Direction} {l : Link}
    (hnear : (l.side d).node = id) (hfar : (l.side d.opposite).node ≠ id) (u : ν) :
    recorded id u l = (Vertex.links d id u).count l := by
  unfold recorded
  cases d with
  | incoming =>
    have hin : l.input.node = id := hnear
    have hout : l.output.node ≠ id := hfar
    rw [if_pos hin, if_neg hout]
  | outgoing =>
    have hin : l.input.node ≠ id := hfar
    rw [if_neg hin]

/-- Both ends of every connection agree after a repair. -/
theorem consistent_repair {g : Graph ν} (hg : g.Consistent) {id : NodeId} {v : ν}
    (hv : g.find? id = some v) (w : ν) :
    (g.repair id (Vertex.links .incoming id v) (Vertex.links .outgoing id v) w).val.Consistent :=
  (repaired_repair hg hv w).consistent hg (fun _ hl => (count_settlement hg hv _ hl).2)
    fun _ hl => touches_of_mem_settlement hg hv _ (.inr hl)

/-- A repair revises the vertex. -/
theorem revised_repair [JoiningVertex φ ν] {g : Graph ν} (hg : g.Consistent) {id : NodeId} {v : ν}
    (hv : g.find? id = some v) (w : ν) :
    Revised g id (g.rebind id w).val
      (g.repair id (Vertex.links .incoming id v) (Vertex.links .outgoing id v) w).val := by
  have hr := repaired_repair hg hv w
  have hmembership := membership_rebind g id w
  have hconsistent := consistent_repair hg hv w
  revert hr hmembership hconsistent
  generalize (g.rebind id w).val = u
  generalize (g.repair id (Vertex.links .incoming id v) (Vertex.links .outgoing id v) w).val = h
  intro hr hmembership hconsistent
  have htotal {l : Link} (hl : l.touches id = true) := (count_settlement hg hv u hl).2
  have hlost : ∀ l ∈ (settlement id v u).lost, l.touches id = true :=
    fun l hl => touches_of_mem_settlement hg hv u (.inr hl)
  have hleft {l : Link} (hl : l.touches id = true) :
      h.multiplicity l = min (g.multiplicity l) (recorded id u l) := by
    rw [← (count_settlement hg hv u hl).1]
    exact hr.count_of_settled hg (htotal hl) .outgoing
  refine ⟨hr.id_eq, hr.next_eq, hr.ids_eq (contains_iff.mpr ⟨v, hv⟩), ?_, hconsistent, ?_, ?_,
    hr.others, ?_, hr.sublist, hr.elsewhere hlost, ?_⟩
  · obtain ⟨w', hw', hrewired⟩ := hr.vertex
    exact ⟨w', hw', hrewired.membership_eq.trans hmembership, hrewired⟩
  · intro d l hnear hfar
    rw [hleft ((Link.touches_iff d).mpr (.inl hnear)), recorded_of_one_end hnear hfar]
  · intro l hout hin
    rw [hleft ((Link.touches_iff .outgoing).mpr (.inl hout))]
    unfold recorded
    rw [if_pos hin, if_pos hout]
  · intro k hk
    have hrel := hr.others hk
    revert hrel
    generalize g.find? k = x
    generalize h.find? k = y
    rintro (hxy | _)
    · exact congrArg some hxy.membership_eq
    · rfl
  · intro k hk hfree
    refine hr.unlinked hg (fun l hl => ⟨hlost l hl, ?_⟩) hk hfree
    have hpos : 0 < (settlement id v u).lost.count l := List.count_pos_iff.mpr hl
    have := htotal (hlost l hl)
    omega

/-- Revising a stored vertex answers what the function answers, and leaves the graph revised. -/
theorem revised_modify [JoiningVertex φ ν] {g : Graph ν} (hg : g.Consistent) {id : NodeId}
    {v : ν} (hv : g.find? id = some v) (f : ν → Journaled (ν × ρ)) :
    (g.modify id f).val.2 = .ok (f v).val.2 ∧
      Revised g id (g.rebind id (f v).val.1).val (g.modify id f).val.1 := by
  unfold modify
  rw [hv]
  exact ⟨rfl, revised_repair hg hv (f v).val.1⟩

/-- An operator with a loop and a connection to a second one. It renews its inputs whenever it
joins. -/
def tied : Graph (Operator .multi) :=
  let o : Operator .multi :=
    { name := "", kind := .other, joining := .renewInputs, leaving := .idle "",
      inputs := Port.row 1, outputs := Port.row 1 }
  let g := ((Graph.empty .first).insert o).val.1
  let g := (g.insert o).val.1
  let g := (g.connect .outgoing ⟨.first, 0⟩ ⟨.first, 0⟩).val.1
  (g.connect .outgoing ⟨.first, 0⟩ ⟨NodeId.first.next, 0⟩).val.1

theorem consistent_tied : tied.Consistent := by
  have hempty : (Graph.empty .first : Graph (Operator .multi)).Consistent :=
    consistent_of_vertices_eq_empty rfl
  exact (((hempty.insert _).insert _).connect _ _ _).connect _ _ _

/-- An operator that leaves while it is revised joins again. Its inputs are renewed, so the loop is
lost at both ends, and the connection of its output is kept. -/
theorem revised_modify_tied :
    tied.Consistent ∧ ∃ v, tied.find? .first = some v ∧
      (tied.modify .first fun v => (·, ()) <$> Vertex.onLeave v).val.2 = .ok () ∧
      Revised tied .first (tied.rebind .first (Vertex.onLeave v).val).val
        (tied.modify .first fun v => (·, ()) <$> Vertex.onLeave v).val.1 ∧
      (tied.modify .first fun v => (·, ()) <$> Vertex.onLeave v).val.1.multiplicity
        ⟨⟨.first, 0⟩, ⟨.first, 0⟩⟩ = 0 ∧
      (tied.modify .first fun v => (·, ()) <$> Vertex.onLeave v).val.1.multiplicity
        ⟨⟨.first, 0⟩, ⟨NodeId.first.next, 0⟩⟩ = 1 := by
  obtain ⟨v, hv⟩ : ∃ v, tied.find? .first = some v := ⟨_, rfl⟩
  obtain ⟨hanswer, hrevised⟩ :=
    revised_modify consistent_tied hv fun v => (·, ()) <$> Vertex.onLeave v
  exact ⟨consistent_tied, v, hv, hanswer, hrevised, by decide, by decide⟩

/-- The weight of a vertex is not changed by a revision of another one. -/
theorem Revised.weight_eq {ω : Type} {g h : Graph (Node φ ω)} {id : NodeId} {u : Node φ ω}
    (hr : Revised g id u h) {k : NodeId} (hk : k ≠ id) :
    (h.find? k).map Node.weight = (g.find? k).map Node.weight := by
  have hrel := hr.others hk
  revert hrel
  generalize g.find? k = v
  generalize h.find? k = w
  rintro (hvw | _)
  · exact congrArg some (hvw.observe Node.weight fun d _ _ => by cases d <;> rfl)
  · rfl

omit [LawfulPorts φ ν] in
/-- A stored vertex is repaired after the function was called. -/
theorem val_modify {g : Graph ν} {id : NodeId} {v : ν} (hv : g.find? id = some v)
    (f : ν → Journaled (ν × ρ)) : (g.modify id f).val =
      ((g.repair id (Vertex.links .incoming id v) (Vertex.links .outgoing id v) (f v).val.1).val,
        .ok (f v).val.2) := by
  unfold modify
  rw [hv]
  rfl

omit [LawfulPorts φ ν] in
/-- Nothing goes wrong but that there is no such vertex. -/
theorem modify_error {g : Graph ν} {id : NodeId} {f : ν → Journaled (ν × ρ)} {e : GraphError}
    (he : (g.modify id f).val.2 = .error e) : e = .notFound id := by
  unfold modify at he
  split at he
  · exact (Except.error.inj he).symm
  · cases he

/-! ## Consistency -/

/-- A revision keeps a graph consistent, whatever is done to the vertex. -/
theorem Consistent.modify {g : Graph ν} (hg : g.Consistent) (id : NodeId)
    (f : ν → Journaled (ν × ρ)) : (g.modify id f).val.1.Consistent := by
  unfold Graph.modify
  cases hv : g.find? id with
  | none => exact hg
  | some v => exact consistent_repair hg hv (f v).val.1

/-! ## Revising one vertex after the other -/

variable {σ : Type}

/-- What the revision of one vertex makes of the graph and of the state that is passed on. -/
def revisedNext (f : σ → NodeId → ν → Journaled (ν × σ)) : Graph ν × σ → NodeId → Graph ν × σ
  | (g, x), id =>
    match g.find? id with
    | none => (g, x)
    | some v => ((g.modify id (f x id)).val.1, (f x id v).val.2)

omit [LawfulPorts φ ν] in
theorem revisedNext_of_absent {g : Graph ν} {id : NodeId} (hv : g.find? id = none)
    (f : σ → NodeId → ν → Journaled (ν × σ)) (x : σ) : revisedNext f (g, x) id = (g, x) := by
  simp only [revisedNext, hv]

omit [LawfulPorts φ ν] in
theorem revisedNext_of_stored {g : Graph ν} {id : NodeId} {v : ν} (hv : g.find? id = some v)
    (f : σ → NodeId → ν → Journaled (ν × σ)) (x : σ) :
    revisedNext f (g, x) id = ((g.modify id (f x id)).val.1, (f x id v).val.2) := by
  simp only [revisedNext, hv]

omit [LawfulPorts φ ν] in
/-- The vertices are revised in turn. -/
theorem val_modifyEach (g : Graph ν) (f : σ → NodeId → ν → Journaled (ν × σ)) (x : σ) :
    (g.modifyEach f x).val = g.ids.foldl (revisedNext f) (g, x) := by
  unfold modifyEach
  rw [Journaled.val_foldlM]
  refine congrArg (fun step => g.ids.foldl step (g, x)) (funext fun s => funext fun id => ?_)
  obtain ⟨h, y⟩ := s
  cases hv : h.find? id with
  | none =>
    rw [revisedNext_of_absent hv]
    simp only [Graph.modify, hv]
    rfl
  | some v =>
    rw [revisedNext_of_stored hv]
    simp only [Graph.modify, hv]
    rfl

omit [LawfulPorts φ ν] in
/-- Revising one vertex after the other keeps what every revision keeps of a graph, and preserves
what the function preserves of its state. -/
theorem modifyEach_invariant {Q : Graph ν → Prop} {P : σ → Prop}
    (hQ : ∀ g id (f : ν → Journaled (ν × σ)), Q g → Q (g.modify id f).val.1)
    {f : σ → NodeId → ν → Journaled (ν × σ)} (hf : ∀ x id v, P x → P (f x id v).val.2)
    {g : Graph ν} (hg : Q g) {x : σ} (hx : P x) :
    Q (g.modifyEach f x).val.1 ∧ P (g.modifyEach f x).val.2 := by
  rw [val_modifyEach]
  generalize g.ids = ks
  induction ks generalizing g x with
  | nil => exact ⟨hg, hx⟩
  | cons id rest ih =>
    rw [List.foldl_cons]
    cases hv : g.find? id with
    | none =>
      rw [revisedNext_of_absent hv]
      exact ih hg hx
    | some v =>
      rw [revisedNext_of_stored hv]
      exact ih (hQ g id (f x id) hg) (hf x id v hx)

end PortGraph.Graph
