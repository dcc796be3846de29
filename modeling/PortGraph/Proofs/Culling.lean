import PortGraph.Proofs.Owners
import PortGraph.Proofs.Releasing

/-!
# What a culled graph looks like

A graph of weighted vertices is culled when some of its vertices are erased or released. Each of
them loses its connections one at a time, and those that go later lose what is left by then. All the
same, a consistent graph is left with the subgraph that the other vertices induce, whichever way the
vertices went and in whatever order (`Depleted.eq_induced`). `Culled` puts this together for single
vertices and for `retain`, which asks about all vertices before the first of them goes
(`interview`).
-/

namespace PortGraph

variable {φ : Flavour}

/-- The vertex with its weight and its ports, but without connections and without a membership. -/
def Node.orphaned {ω : Type} (v : Node φ ω) : Node φ ω where
  weight := v.weight
  inputs := v.inputs.map Port.clear
  outputs := v.outputs.map Port.clear

namespace Graph

/-! ## Questions -/

section Interview

variable {ν σ : Type}

/-- Asks `keep` about the listed vertices, one after the other, each time in the state that the
question before has left, and returns the identifiers of those that are to be kept. -/
def interview (keep : NodeId → ν → StateM σ Bool) : List (NodeId × ν) → StateM σ (List NodeId)
  | [] => pure []
  | (k, v) :: rest => do
    let stays ← keep k v
    let others ← interview keep rest
    return if stays then k :: others else others

/-- The same questions, with a record of who was asked about. -/
def noting (keep : NodeId → ν → StateM σ Bool) (k : NodeId) (v : ν) :
    StateM (σ × List (NodeId × ν)) Bool :=
  fun (s, asked) => (((keep k v).run s).1, ((keep k v).run s).2, asked ++ [(k, v)])

theorem run_interview_cons (keep : NodeId → ν → StateM σ Bool) (k : NodeId) (v : ν)
    (rest : List (NodeId × ν)) (s : σ) :
    (interview keep ((k, v) :: rest)).run s =
      (if ((keep k v).run s).1 = true
        then k :: ((interview keep rest).run ((keep k v).run s).2).1
        else ((interview keep rest).run ((keep k v).run s).2).1,
        ((interview keep rest).run ((keep k v).run s).2).2) := rfl

/-- Keeping a record changes no answer. -/
theorem run_interview_noting (keep : NodeId → ν → StateM σ Bool) (es asked : List (NodeId × ν))
    (s : σ) :
    (interview (noting keep) es).run (s, asked) =
      (((interview keep es).run s).1, ((interview keep es).run s).2, asked ++ es) := by
  induction es generalizing asked s with
  | nil => rw [List.append_nil]; rfl
  | cons e rest ih =>
    have hrest := ih (asked ++ [e]) ((keep e.1 e.2).run s).2
    rw [List.append_assoc] at hrest
    have hnote : (noting keep e.1 e.2).run (s, asked) =
        (((keep e.1 e.2).run s).1, ((keep e.1 e.2).run s).2, asked ++ [e]) := rfl
    rw [run_interview_cons, run_interview_cons, hnote, hrest]
    rfl

/-- Only vertices that were asked about are to be kept. -/
theorem mem_of_mem_interview {keep : NodeId → ν → StateM σ Bool} {es : List (NodeId × ν)} {s : σ}
    {k : NodeId} (hk : k ∈ ((interview keep es).run s).1) : k ∈ es.map Prod.fst := by
  induction es generalizing s with
  | nil => exact absurd hk List.not_mem_nil
  | cons e rest ih =>
    rw [run_interview_cons] at hk
    simp only at hk
    split at hk
    · rcases List.mem_cons.mp hk with rfl | hk
      · exact .head _
      · exact .tail _ (ih hk)
    · exact .tail _ (ih hk)

/-- The same questions tell which vertices are rejected: the others. -/
theorem run_filterAuxM (keep : NodeId → ν → StateM σ Bool) {es : List (NodeId × ν)}
    (hes : es.Pairwise fun a b => a.1 < b.1) (acc : List (NodeId × ν)) (s : σ) :
    (es.filterAuxM (fun e => do return !(← keep e.1 e.2)) acc : StateM σ _).run s =
      ((es.filter fun e => !((interview keep es).run s).1.contains e.1).reverse ++ acc,
        ((interview keep es).run s).2) := by
  induction es generalizing acc s with
  | nil => rfl
  | cons e rest ih =>
    obtain ⟨j, v⟩ := e
    obtain ⟨hfirst, hrest⟩ := List.pairwise_cons.mp hes
    have hlater {x : NodeId × ν} (hx : x ∈ rest) : x.1 ≠ j := by
      rintro rfl
      exact NodeId.lt_irrefl _ (hfirst x hx)
    have hothers := ih hrest (cond (!((keep j v).run s).1) ((j, v) :: acc) acc)
      ((keep j v).run s).2
    have hnew : j ∉ ((interview keep rest).run ((keep j v).run s).2).1 := by
      intro hj
      obtain ⟨x, hx, hxj⟩ := List.mem_map.mp (mem_of_mem_interview hj)
      exact hlater hx hxj
    refine hothers.trans ?_
    rw [run_interview_cons]
    generalize (interview keep rest).run ((keep j v).run s).2 = asked at hnew ⊢
    cases ((keep j v).run s).1 with
    | true =>
      have hsame : (rest.filter fun x => !(j :: asked.1).contains x.1) =
          rest.filter fun x => !asked.1.contains x.1 := by
        apply List.filter_congr
        intro x hx
        simp [hlater hx]
      rw [if_pos rfl, List.filter_cons_of_neg (by simp), hsame]
      rfl
    | false =>
      rw [if_neg Bool.false_ne_true, List.filter_cons_of_pos (by simpa using hnew),
        List.reverse_cons, List.append_assoc]
      rfl

end Interview

/-! ## Rejected vertices -/

section Rejected

variable {ν σ : Type}

/-- Those vertices are rejected that are not to be kept. -/
theorem run_rejected (g : Graph ν) (keep : NodeId → ν → StateM σ Bool) (s : σ) :
    (g.rejected keep).run s =
      (g.ids.filter fun k => !((interview keep g.vertices.entries).run s).1.contains k,
        ((interview keep g.vertices.entries).run s).2) := by
  have hdoomed := run_filterAuxM keep g.vertices.ascending [] s
  rw [List.append_nil] at hdoomed
  have hids (p : NodeId → Bool) :
      (g.vertices.entries.filter fun e => p e.1).map Prod.fst = g.ids.filter p :=
    List.filter_map.symm
  rw [← hids]
  calc (g.rejected keep).run s
      = (((g.vertices.entries.filterAuxM (fun e => do return !(← keep e.1 e.2)) []
            : StateM σ _).run s).1.reverse.map Prod.fst,
          ((g.vertices.entries.filterAuxM (fun e => do return !(← keep e.1 e.2)) []
            : StateM σ _).run s).2) := rfl
    _ = _ := by rw [hdoomed, List.reverse_reverse]

variable [Vertex φ ν]

/-- Retaining passes on the state in which the last question left. -/
theorem val_retain_snd (g : Graph ν) (keep : NodeId → ν → StateM σ Bool) (s : σ) :
    (g.retain keep s).val.2 = ((interview keep g.vertices.entries).run s).2 := by
  rw [← congrArg Prod.snd (run_rejected g keep s)]
  rfl

end Rejected

/-! ## Excisions -/

/-- Only what becomes of stored vertices matters. -/
theorem Excision.congr {ν : Type} [Vertex φ ν] {g h : Graph ν} {gone gone' : NodeId → Bool}
    (he : Excision g h gone) (hg : g.Consistent)
    (hgone : ∀ k, g.contains k = true → gone k = gone' k) : Excision g h gone' where
  id_eq := he.id_eq
  next_eq := he.next_eq
  vertices k := by
    have hv := he.vertices k
    by_cases hk : g.contains k = true
    · rwa [← hgone k hk]
    · rw [not_contains_iff.mp hk, ite_self] at hv ⊢
      exact hv
  peers d s := by
    rw [he.peers]
    by_cases hs : g.contains s.node = true
    · rw [hgone _ hs]
      have hfilter : ((g.peers d s).filter fun t => !gone t.node) =
          (g.peers d s).filter fun t => !gone' t.node := by
        apply List.filter_congr
        intro t ht
        rw [hgone _ (contains_iff.mpr (hg.hasPort ht).exists_find?)]
      rw [hfilter]
    · rw [peers_eq_nil_of_find? (not_contains_iff.mp hs), List.filter_nil, List.filter_nil,
        ite_self, ite_self]

section Weighted

variable {ω : Type} {g h : Graph (Node φ ω)}

/-- What is left after an excision is what the vertices that stay induce. -/
theorem Excision.eq_induced {gone : NodeId → Bool} (he : Excision g h gone) :
    h = g.induced fun k => !gone k := by
  refine ext_find? he.id_eq he.next_eq fun k => ?_
  rw [find?_induced]
  cases hk : gone k with
  | true => exact he.find?_eq_none hk
  | false =>
    have hstays := he.vertices_of_stays hk
    cases hv : g.find? k with
    | none => exact eq_none_of_rel_none (hv ▸ hstays)
    | some v =>
      obtain ⟨w, hw, hvw⟩ := exists_of_rel_some (hv ▸ hstays)
      rw [hw]
      refine congrArg some (Node.eq_of_rewired hvw (Vertex.rewired_restrict _ v) fun d i => ?_)
      have hpeers := he.peers d ⟨k, i⟩
      rw [peers_eq_of_find? hw, peers_eq_of_find? hv, hk, if_neg Bool.false_ne_true] at hpeers
      rw [Vertex.peers_restrict]
      exact hpeers

/-- It is enough to know of the stored vertices which of them stay. -/
theorem Excision.eq_induced_of_stays {gone stays : NodeId → Bool} (he : Excision g h gone)
    (hg : g.Consistent) (hstays : ∀ k, g.contains k = true → gone k = !stays k) :
    h = g.induced stays := by
  have hleft := (he.congr hg hstays).eq_induced
  simp only [Bool.not_not] at hleft
  exact hleft

/-- `h` is what is left of `g` after the listed vertices were removed one after the other, each of
them in either way. -/
inductive Depleted : Graph (Node φ ω) → List NodeId → Graph (Node φ ω) → Prop where
  | nil (g : Graph (Node φ ω)) : Depleted g [] g
  | erase {g h : Graph (Node φ ω)} {id : NodeId} {ids : List NodeId}
    (hrest : Depleted (g.erase id).val.1 ids h) : Depleted g (id :: ids) h
  | release {g h : Graph (Node φ ω)} {id : NodeId} {ids : List NodeId}
    (hrest : Depleted (g.release id).val.1 ids h) : Depleted g (id :: ids) h

/-- Either way of removing a vertex is an excision. -/
theorem Depleted.excision {ids : List NodeId} (hd : Depleted g ids h) (hg : g.Consistent) :
    Excision g h ids.contains := by
  induction hd with
  | nil g => exact .refl hg fun k hk => by simp at hk
  | @erase g h id ids _ ih =>
    have hfirst := excision_erase hg id
    exact hfirst.cons (ih (hfirst.consistent hg))
  | @release g h id ids _ ih =>
    have hfirst := excision_erase hg id
    rw [← val_release g id hg] at hfirst
    exact hfirst.cons (ih (hfirst.consistent hg))

/-- It does not matter in which order vertices are removed, or how. -/
theorem Depleted.eq_induced {ids : List NodeId} (hd : Depleted g ids h) (hg : g.Consistent) :
    h = g.induced fun k => !ids.contains k :=
  (hd.excision hg).eq_induced

/-- A released vertex is handed out without connections and without a membership. -/
theorem val_release_snd (hg : g.Consistent) {id : NodeId} {v : Node φ ω}
    (hv : g.find? id = some v) : (g.release id).val.2 = some v.orphaned := by
  obtain ⟨w, hw, hvw⟩ := (rewired_severWhere hg id fun _ => false).exists_find? hv
  have hclear : w = Vertex.clearLinks v := by
    refine Node.eq_of_rewired hvw (Vertex.rewired_mapPorts Port.offset_clear v) fun d i => ?_
    rw [Vertex.unconnected_iff.mp (unconnected_severWhere hg hw), Vertex.peers_clearLinks]
  rw [release, if_pos (contains_iff.mpr ⟨v, hv⟩)]
  simp only [Journaled.val_bind, unbind, hw, hclear]
  rfl

/-- Retaining vertices leaves what these induce. -/
theorem val_retain_fst {σ : Type} (hg : g.Consistent) (keep : NodeId → Node φ ω → StateM σ Bool)
    (s : σ) :
    (g.retain keep s).val.1 =
      g.induced ((interview keep g.vertices.entries).run s).1.contains := by
  have he := excision_retain hg keep s
  rw [run_rejected] at he
  refine he.eq_induced_of_stays hg fun k hk => ?_
  have hid : k ∈ g.ids := IdMap.mem_keys_iff.mpr hk
  simp [List.mem_filter, hid]

/-! ## Culled graphs -/

/-- Whichever vertices of `g` are removed, what is left is what the others induce. -/
structure Culled (g : Graph (Node φ ω)) : Prop where
  /-- One vertex is destroyed. -/
  erase {id : NodeId} {v : Node φ ω} (hv : g.find? id = some v) :
    (g.erase id).val = (g.induced (· != id), true)
  /-- One vertex is handed out, as an orphan. -/
  release {id : NodeId} {v : Node φ ω} (hv : g.find? id = some v) :
    (g.release id).val = (g.induced (· != id), some v.orphaned)
  /-- Those vertices stay for which the answer was to keep them. -/
  retain {σ : Type} (keep : NodeId → Node φ ω → StateM σ Bool) (s : σ) :
    (g.retain keep s).val =
      (g.induced ((interview keep g.vertices.entries).run s).1.contains,
        ((interview keep g.vertices.entries).run s).2)
  /-- Every vertex is asked about once, in ascending order, as it was before any of them went. -/
  asked {σ : Type} (keep : NodeId → Node φ ω → StateM σ Bool) (s : σ) :
    (g.retain (noting keep) (s, [])).val =
      ((g.retain keep s).val.1, (g.retain keep s).val.2, g.vertices.entries)
  /-- The order in which vertices are removed makes no difference, -/
  any_order {ids : List NodeId} {h : Graph (Node φ ω)} (hd : Depleted g ids h) :
    h = g.induced fun k => !ids.contains k
  /-- also where those that are not to be kept are removed in an order of one's own. -/
  retain_any_order {σ : Type} (keep : NodeId → Node φ ω → StateM σ Bool) (s : σ)
    {ids : List NodeId}
    (hids : ∀ k, g.contains k = true →
      (k ∈ ids ↔ k ∉ ((interview keep g.vertices.entries).run s).1))
    {h : Graph (Node φ ω)} (hd : Depleted g ids h) : h = (g.retain keep s).val.1

/-- The same vertices stay where the rejected ones are removed in another order. -/
theorem Depleted.eq_retain {σ : Type} (hg : g.Consistent)
    {keep : NodeId → Node φ ω → StateM σ Bool} {s : σ} {ids : List NodeId}
    (hids : ∀ k, g.contains k = true →
      (k ∈ ids ↔ k ∉ ((interview keep g.vertices.entries).run s).1))
    (hd : Depleted g ids h) : h = (g.retain keep s).val.1 := by
  rw [val_retain_fst hg]
  refine (hd.excision hg).eq_induced_of_stays hg fun k hk => ?_
  rw [Bool.eq_iff_iff, List.contains_iff_mem, hids k hk]
  simp

/-- Removing vertices leaves the subgraph that the others induce. -/
theorem removals_leave_induced (hg : g.Consistent) : Culled g where
  erase {id v} hv := by
    have hcontains : g.contains id = true := contains_iff.mpr ⟨v, hv⟩
    refine Prod.ext (excision_erase hg id).eq_induced ?_
    rw [Graph.erase, if_pos hcontains]
    rfl
  release {id v} hv := by
    refine Prod.ext ?_ (val_release_snd hg hv)
    rw [val_release g id hg]
    exact (excision_erase hg id).eq_induced
  retain keep s := Prod.ext (val_retain_fst hg keep s) (g.val_retain_snd keep s)
  asked keep s := by
    refine Prod.ext ?_ ?_
    · rw [val_retain_fst hg, val_retain_fst hg, run_interview_noting]
    · rw [val_retain_snd, val_retain_snd, run_interview_noting]
      rfl
  any_order hd := hd.eq_induced hg
  retain_any_order _ _ _ hids _ hd := hd.eq_retain hg hids

/-- Keeps every other vertex, beginning as the state says. -/
def everyOther (_ : NodeId) (_ : Node φ ω) : StateM Bool Bool :=
  fun stays => (stays, !stays)

/-- The vertex in the middle of a row is not kept. The first one stays connected to itself, and
nothing is left for the last one to list. The middle one is handed out without its loop. -/
theorem removals_leave_induced_row :
    let second : NodeId := NodeId.first.next
    let g := row .first
    let h := (g.retain everyOther true).val.1
    g.Consistent ∧ Culled g ∧ h.ids = [.first, second.next] ∧
      h.peers .outgoing ⟨.first, 0⟩ = [⟨.first, 0⟩] ∧
      h.peers .incoming ⟨second.next, 0⟩ = [] ∧
      (g.release second).val.2 = some (Node.new () 1 1) := by
  intro second g h
  have hculled := removals_leave_induced (sound_row .first).consistent
  exact ⟨(sound_row .first).consistent, hculled, by decide, by decide, by decide, by decide⟩

end Weighted

end Graph

end PortGraph
