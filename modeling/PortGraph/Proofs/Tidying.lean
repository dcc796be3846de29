import PortGraph.Proofs.Identities
import PortGraph.Proofs.InputOrder

/-!
# Revisions that leave the ports alone

A revised vertex may have the membership and the ports that it had: perhaps only its weight was
changed (`Vertex.SameWiring`). Then no link is lost, but all links of the vertex are recorded again,
those of its inputs first. So a loop comes before the other links of its output, wherever it stood
in the list, and loops come in the order of their inputs. This is how the outputs of the vertex are
tidied (`Slot.tidy`); the inputs list what they listed, and no other vertex is touched.

`Tidied g ks h` says this of the vertices `ks`. A single revision tidies one vertex
(`tidied_modify`), revising every vertex tidies all of them (`tidied_modifyEach`).
-/

namespace PortGraph

/-! ## Tidy lists -/

namespace Slot

/-- Slots are compared by their offsets alone. -/
def offsetLE (s t : Slot) : Bool := s.offset ≤ t.offset

theorem offsetLE_trans (s t u : Slot) (hst : offsetLE s t = true) (htu : offsetLE t u = true) :
    offsetLE s u = true := by
  unfold offsetLE at *
  exact decide_eq_true (Nat.le_trans (of_decide_eq_true hst) (of_decide_eq_true htu))

theorem offsetLE_total (s t : Slot) : (offsetLE s t || offsetLE t s) = true := by
  unfold offsetLE
  simpa using Nat.le_total s.offset t.offset

/-- The slots of vertex `id` in the order of their offsets, and after them the others, in the order
in which they are. -/
def tidy (id : NodeId) (slots : List Slot) : List Slot :=
  (slots.filter fun t => t.node = id).mergeSort offsetLE ++ slots.filter fun t => t.node ≠ id

/-- The slots of vertex `id` come first, in the order of their offsets. -/
def IsTidy (id : NodeId) (slots : List Slot) : Prop :=
  slots.Pairwise fun s t => t.node = id → s.node = id ∧ s.offset ≤ t.offset

section

variable {id : NodeId} {own slots : List Slot}

/-- Tidying changes the order only. -/
theorem perm_tidy (id : NodeId) (slots : List Slot) : (tidy id slots).Perm slots := by
  have hsplit := List.filter_append_perm (fun t : Slot => decide (t.node = id)) slots
  simp only [← decide_not] at hsplit
  exact ((List.mergeSort_perm _ _).append_right _).trans hsplit

/-- Slots are put in the order of their offsets. -/
theorem pairwise_mergeSort_offsetLE (slots : List Slot) :
    (slots.mergeSort offsetLE).Pairwise fun s t => s.offset ≤ t.offset := by
  have hsort : (slots.mergeSort offsetLE).Pairwise fun s t => offsetLE s t = true :=
    List.pairwise_mergeSort offsetLE_trans offsetLE_total slots
  exact hsort.imp of_decide_eq_true

/-- A list of the slots of vertex `id`, in the order of their offsets, is the beginning of the
tidied list. -/
theorem append_eq_tidy (hperm : own.Perm (slots.filter fun t => t.node = id))
    (h : own.Pairwise fun s t => s.offset ≤ t.offset) :
    own ++ slots.filter (fun t => t.node ≠ id) = tidy id slots := by
  have hperm' := hperm.trans (List.mergeSort_perm (slots.filter fun t => t.node = id) offsetLE).symm
  have hnode (t : Slot) (ht : t ∈ own) : t.node = id :=
    of_decide_eq_true (List.mem_filter.mp (hperm.mem_iff.mp ht)).2
  refine congrArg (· ++ _) (hperm'.eq_of_pairwise ?_ h (pairwise_mergeSort_offsetLE _))
  intro s t hs ht hst hts
  have hsame : s.node = t.node := (hnode s hs).trans (hnode t (hperm'.mem_iff.mpr ht)).symm
  have hoffset : s.offset = t.offset := Nat.le_antisymm hst hts
  calc s = ⟨s.node, s.offset⟩ := rfl
    _ = ⟨t.node, t.offset⟩ := by rw [hsame, hoffset]
    _ = t := rfl

/-- A tidied list is tidy. -/
theorem isTidy_tidy (id : NodeId) (slots : List Slot) : IsTidy id (tidy id slots) := by
  have hown (t : Slot) (ht : t ∈ (slots.filter fun t => t.node = id).mergeSort offsetLE) :
      t.node = id :=
    of_decide_eq_true (List.mem_filter.mp (List.mem_mergeSort.mp ht)).2
  have hother (t : Slot) (ht : t ∈ slots.filter fun t => t.node ≠ id) : t.node ≠ id :=
    of_decide_eq_true (List.mem_filter.mp ht).2
  refine List.pairwise_append.mpr ⟨?_, ?_, fun s _ t ht hid => absurd hid (hother t ht)⟩
  · refine (pairwise_mergeSort_offsetLE _).imp_of_mem fun hs _ hle _ => ⟨hown _ hs, hle⟩
  · exact List.pairwise_of_forall_mem_list fun s _ t ht hid => absurd hid (hother t ht)

/-- A tidy list has the slots of vertex `id` before the others. -/
theorem IsTidy.filter_append_filter (h : IsTidy id slots) :
    slots.filter (fun t => t.node = id) ++ slots.filter (fun t => t.node ≠ id) = slots := by
  induction slots with
  | nil => rfl
  | cons s rest ih =>
    obtain ⟨hs, hrest⟩ := List.pairwise_cons.mp h
    by_cases hid : s.node = id
    · simpa [hid] using ih hrest
    · -- the slots of the vertex would come before this one
      have hother (t : Slot) (ht : t ∈ s :: rest) : t.node ≠ id := by
        rcases List.mem_cons.mp ht with rfl | ht
        · exact hid
        · exact fun heq => hid (hs t ht heq).1
      rw [List.filter_eq_nil_iff.mpr fun t ht => by simpa using hother t ht, List.nil_append]
      exact List.filter_eq_self.mpr fun t ht => decide_eq_true (hother t ht)

/-- Just the tidy lists stay as they are. -/
theorem tidy_eq_self_iff : tidy id slots = slots ↔ IsTidy id slots := by
  constructor
  · intro h
    rw [← h]
    exact isTidy_tidy id slots
  · intro h
    have hown : (slots.filter fun t => t.node = id).Pairwise fun s t => s.offset ≤ t.offset := by
      refine (List.Pairwise.filter _ h).imp_of_mem fun _ ht hle => (hle ?_).2
      exact of_decide_eq_true (List.mem_filter.mp ht).2
    rw [← append_eq_tidy (.refl _) hown]
    exact h.filter_append_filter

/-- A list of one slot at most is tidy. -/
theorem isTidy_of_length_le (h : slots.length ≤ 1) : IsTidy id slots := by
  match slots with
  | [] => exact .nil
  | [_] => exact List.pairwise_singleton _ _
  | _ :: _ :: _ => simp at h

/-- Tidying leaves the other slots where they are. -/
theorem filter_ne_tidy (id : NodeId) (slots : List Slot) :
    (tidy id slots).filter (fun t => t.node ≠ id) = slots.filter fun t => t.node ≠ id := by
  have hown : ((slots.filter fun t => t.node = id).mergeSort offsetLE).filter
      (fun t => t.node ≠ id) = [] := by
    refine List.filter_eq_nil_iff.mpr fun t ht => ?_
    have hnode := (List.mem_filter.mp (List.mem_mergeSort.mp ht)).2
    simpa using hnode
  rw [tidy, List.filter_append, hown, List.nil_append, List.filter_filter]
  simp only [Bool.and_self]

end

end Slot

/-! ## Vertices that keep their wiring -/

namespace Vertex

variable {φ : Flavour} {ν : Type} [Vertex φ ν]

/-- `w` has the membership of `v`, and the same ports with the same opposites. -/
structure SameWiring (v w : ν) : Prop where
  membership_eq : membership w = membership v
  ports_eq (d : Direction) : ports d w = ports d v

/-- A vertex records the links that its ports list. -/
theorem SameWiring.links_eq {v w : ν} (h : SameWiring v w) (d : Direction) (id : NodeId) :
    links d id w = links d id v := by
  unfold links contacts
  rw [h.ports_eq]

/-- `w` has the membership of `v`, and as many ports with the same offsets. -/
structure Alike (v w : ν) : Prop where
  membership_eq : membership w = membership v
  offsets (d : Direction) : (ports d w).map Port.offset = (ports d v).map Port.offset

theorem Alike.refl (v : ν) : Alike v v := ⟨rfl, fun _ => rfl⟩

theorem Alike.trans {u v w : ν} (huv : Alike u v) (hvw : Alike v w) : Alike u w :=
  ⟨hvw.membership_eq.trans huv.membership_eq, fun d => (hvw.offsets d).trans (huv.offsets d)⟩

/-- A rewiring of a vertex with the same wiring leaves it alike. -/
theorem SameWiring.alike [LawfulPorts φ ν] {u v w : ν} (huv : SameWiring u v)
    (hvw : Rewired v w) : Alike u w where
  membership_eq := hvw.membership_eq.trans huv.membership_eq
  offsets d := by rw [hvw.offsets, huv.ports_eq]

end Vertex

namespace Graph

variable {φ : Flavour} {ν : Type} [Vertex φ ν]

/-! ## What is kept -/

section Kept

variable {g : Graph ν} (hg : g.Consistent) {id : NodeId} {v u : ν} (hv : g.find? id = some v)
  (hu : Vertex.SameWiring v u)

include hg hv hu

/-- A vertex with the same wiring loses no links. -/
theorem lost_settlement : (settlement id v u).lost = [] := by
  apply List.eq_nil_iff_forall_not_mem.mpr
  intro l hl
  have htouches := touches_of_mem_settlement hg hv u (.inr hl)
  obtain ⟨hkept, htotal⟩ := count_settlement hg hv u htouches
  have hrecorded : recorded id u l = g.multiplicity l := by
    unfold recorded
    have hin := count_links_eq_multiplicity hg hv .incoming l
    have hout := count_links_eq_multiplicity hg hv .outgoing l
    rw [hu.links_eq, hu.links_eq, hin, hout]
    rcases (Link.touches_iff .incoming).mp htouches with hnode | hnode
    · have hinput : l.input.node = id := hnode
      by_cases houtput : l.output.node = id <;> simp [Link.side, hinput, houtput]
    · have houtput : l.output.node = id := hnode
      by_cases hinput : l.input.node = id <;> simp [Link.side, hinput, houtput]
  have hpos : 0 < (settlement id v u).lost.count l := List.count_pos_iff.mpr hl
  omega

/-- Its inputs list what they listed. -/
theorem farEnds_kept_incoming {s : Slot} (hs : s.node = id) :
    Link.farEnds .incoming s (settlement id v u).kept = g.peers .incoming s := by
  have hnone : Link.farEnds .incoming s
      ((Vertex.links .outgoing id v).filter fun l => l.input.node ≠ id) = [] := by
    rw [Link.farEnds_filter]
    refine List.filter_eq_nil_iff.mpr fun t _ => ?_
    simp [Link.between, hs]
  rw [settlement, kept_settle (lost_settlement hg hv hu), Link.farEnds_append, hnone,
    List.append_nil, Vertex.farEnds_links, if_pos hs, peers_eq_of_find? (hs ▸ hv)]

/-- Its outputs list what they listed, but tidied: the loops are recorded with the links of the
inputs. -/
theorem farEnds_kept_outgoing {s : Slot} (hs : s.node = id) :
    Link.farEnds .outgoing s (settlement id v u).kept = Slot.tidy id (g.peers .outgoing s) := by
  have hothers : Link.farEnds .outgoing s
      ((Vertex.links .outgoing id v).filter fun l => l.input.node ≠ id) =
      (g.peers .outgoing s).filter fun t => t.node ≠ id := by
    rw [Link.farEnds_filter, Vertex.farEnds_links, if_pos hs, peers_eq_of_find? (hs ▸ hv)]
    rfl
  have hperm : (Link.farEnds .outgoing s (Vertex.links .incoming id v)).Perm
      ((g.peers .outgoing s).filter fun t => t.node = id) := by
    refine List.perm_iff_count.mpr fun t => ?_
    have hlinks : (Vertex.links .incoming id v).count (Link.between .outgoing s t) =
        if t.node = id then g.multiplicity (Link.between .outgoing s t) else 0 :=
      count_links_eq_multiplicity hg hv .incoming _
    rw [Link.count_farEnds, hlinks]
    by_cases ht : t.node = id
    · have hown : decide (t.node = id) = true := decide_eq_true ht
      rw [if_pos ht, List.count_filter (p := fun t : Slot => decide (t.node = id)) hown]
      rfl
    · rw [if_neg ht, eq_comm, List.count_eq_zero]
      exact fun hmem => ht (of_decide_eq_true (List.mem_filter.mp hmem).2)
  have hsorted : (Link.farEnds .outgoing s (Vertex.links .incoming id v)).Pairwise
      fun t t' => t.offset ≤ t'.offset := by
    have hlinks := (Vertex.pairwise_links id v).sublist
      (List.filter_sublist (p := fun l => decide (l.side .outgoing = s)))
    refine List.pairwise_map.mpr (hlinks.imp_of_mem fun hl hm hle => ?_)
    have hnode := Vertex.input_node_of_mem_links (List.mem_filter.mp hl).1
    have hnode' := Vertex.input_node_of_mem_links (List.mem_filter.mp hm).1
    rw [Link.inputLE_iff, hnode, hnode'] at hle
    exact (hle.resolve_left (Nat.lt_irrefl _)).2
  rw [settlement, kept_settle (lost_settlement hg hv hu), Link.farEnds_append, hothers]
  exact Slot.append_eq_tidy hperm hsorted

end Kept

/-! ## Tidied graphs -/

/-- `h` is `g` with the outputs of the vertices `ks` tidied. -/
structure Tidied (g : Graph ν) (ks : List NodeId) (h : Graph ν) : Prop where
  id_eq : h.id = g.id
  next_eq : h.next = g.next
  /-- Nothing is different in the other vertices. -/
  others {k : NodeId} (hk : k ∉ ks) : h.find? k = g.find? k
  vertices (k : NodeId) : Option.Rel Vertex.Alike (g.find? k) (h.find? k)
  inputs (s : Slot) : h.peers .incoming s = g.peers .incoming s
  outputs {s : Slot} (hs : s.node ∈ ks) :
    h.peers .outgoing s = Slot.tidy s.node (g.peers .outgoing s)

namespace Tidied

variable {f g h : Graph ν} {ks ls : List NodeId}

theorem refl (g : Graph ν) : Tidied g [] g where
  id_eq := rfl
  next_eq := rfl
  others _ := rfl
  vertices k := rel_refl Vertex.Alike.refl (g.find? k)
  inputs _ := rfl
  outputs hs := by cases hs

/-- The ports of the other vertices list what they listed. -/
theorem peers_of_not_mem (ht : Tidied g ks h) (d : Direction) {s : Slot} (hs : s.node ∉ ks) :
    h.peers d s = g.peers d s :=
  peers_congr (port?_congr (ht.others hs))

/-- A vertex that is stored is alike afterwards. -/
theorem exists_find? (ht : Tidied g ks h) {k : NodeId} {v : ν} (hv : g.find? k = some v) :
    ∃ w, h.find? k = some w ∧ Vertex.Alike v w :=
  exists_of_rel_some (hv ▸ ht.vertices k)

/-- Nothing is stored that was not. -/
theorem find?_eq_none (ht : Tidied g ks h) {k : NodeId} (hv : g.find? k = none) :
    h.find? k = none :=
  eq_none_of_rel_none (hv ▸ ht.vertices k)

/-- Other vertices are tidied afterwards. -/
theorem trans (hfg : Tidied f ks g) (hgh : Tidied g ls h) (hdisjoint : ∀ k ∈ ls, k ∉ ks) :
    Tidied f (ks ++ ls) h where
  id_eq := hgh.id_eq.trans hfg.id_eq
  next_eq := hgh.next_eq.trans hfg.next_eq
  others hk := by
    rw [List.mem_append, not_or] at hk
    exact (hgh.others hk.2).trans (hfg.others hk.1)
  vertices k := by
    cases hv : f.find? k with
    | none =>
      rw [hgh.find?_eq_none (hfg.find?_eq_none hv)]
      exact .none
    | some v =>
      obtain ⟨w, hw, hvw⟩ := hfg.exists_find? hv
      obtain ⟨x, hx, hwx⟩ := hgh.exists_find? hw
      rw [hx]
      exact .some (hvw.trans hwx)
  inputs s := (hgh.inputs s).trans (hfg.inputs s)
  outputs {s} hs := by
    by_cases hs' : s.node ∈ ls
    · rw [hgh.outputs hs', hfg.peers_of_not_mem .outgoing (hdisjoint _ hs')]
    · have hfirst : s.node ∈ ks := (List.mem_append.mp hs).resolve_right hs'
      rw [hgh.peers_of_not_mem .outgoing hs', hfg.outputs hfirst]

/-- A placed graph stays placed. -/
theorem placed (ht : Tidied g ks h) (hg : g.Placed) : h.Placed := by
  intro k w hw
  cases hv : g.find? k with
  | none =>
    rw [ht.find?_eq_none hv] at hw
    cases hw
  | some v =>
    obtain ⟨w', hw', halike⟩ := ht.exists_find? hv
    rw [hw] at hw'
    cases hw'
    rw [halike.membership_eq, hg hv, ht.id_eq]

end Tidied

/-! ## Revising one vertex -/

variable [LawfulPorts φ ν]

/-- A repair with a vertex of the same wiring tidies the vertex. -/
theorem tidied_repair {g : Graph ν} (hg : g.Consistent) (hplaced : g.Placed) {id : NodeId} {v w : ν}
    (hv : g.find? id = some v) (hw : Vertex.SameWiring v w) :
    Tidied g [id] (g.repair id (Vertex.links .incoming id v) (Vertex.links .outgoing id v) w).val ∧
      ∃ x, (g.repair id (Vertex.links .incoming id v)
        (Vertex.links .outgoing id v) w).val.find? id = some x ∧ Vertex.Rewired w x := by
  have hrebind : (g.rebind id w).val = w := by
    unfold rebind
    rw [if_pos (hw.membership_eq.trans (hplaced hv))]
    rfl
  have hr := repaired_repair hg hv w
  rw [hrebind, lost_settlement hg hv hw] at hr
  obtain ⟨x, hx, hrewired⟩ := hr.vertex
  have hothers {k : NodeId} (hk : k ≠ id) := hr.untouched hk fun _ hl => by cases hl
  refine ⟨⟨hr.id_eq, hr.next_eq, fun hk => hothers (List.ne_of_not_mem_cons hk), fun k => ?_,
    fun s => ?_, fun {s} hs => ?_⟩, x, hx, hrewired⟩
  · by_cases hk : k = id
    · rw [hk, hv, hx]
      exact .some (hw.alike hrewired)
    · rw [hothers hk]
      exact rel_refl Vertex.Alike.refl _
  · by_cases hs : s.node = id
    · rw [hr.peers hs, farEnds_kept_incoming hg hv hw hs]
    · exact peers_congr (port?_congr (hothers hs))
  · have hnode : s.node = id := List.mem_singleton.mp hs
    rw [hr.peers hnode, farEnds_kept_outgoing hg hv hw hnode, hnode]

variable {ρ σ : Type}

/-- A revision that leaves the wiring of a vertex alone tidies its outputs. The function has its say
about all else. -/
theorem tidied_modify {g : Graph ν} (hg : g.Consistent) (hplaced : g.Placed) {id : NodeId} {v : ν}
    (hv : g.find? id = some v) {f : ν → Journaled (ν × ρ)}
    (hf : Vertex.SameWiring v (f v).val.1) :
    (g.modify id f).val.2 = .ok (f v).val.2 ∧ Tidied g [id] (g.modify id f).val.1 ∧
      ∃ w, (g.modify id f).val.1.find? id = some w ∧ Vertex.Rewired (f v).val.1 w := by
  rw [val_modify hv]
  exact ⟨rfl, tidied_repair hg hplaced hv hf⟩

/-! ## Revising one vertex after the other -/

/-- Each vertex is tidied when its turn comes; until then it is as it was. -/
theorem tidied_foldl {f : σ → NodeId → ν → Journaled (ν × σ)} {ks : List NodeId} (hks : ks.Nodup)
    {g : Graph ν} (hg : g.Consistent) (hplaced : g.Placed)
    (hf : ∀ k ∈ ks, ∃ v, g.find? k = some v ∧ ∀ x, Vertex.SameWiring v (f x k v).val.1) (x : σ) :
    Tidied g ks (ks.foldl (revisedNext f) (g, x)).1 := by
  induction ks generalizing g x with
  | nil => exact .refl g
  | cons k rest ih =>
    obtain ⟨hk, hrest⟩ := List.nodup_cons.mp hks
    obtain ⟨v, hv, hwiring⟩ := hf k (.head _)
    obtain ⟨_, hfirst, _⟩ := tidied_modify hg hplaced hv (hwiring x)
    have hne (j : NodeId) (hj : j ∈ rest) : j ∉ [k] := by
      rw [List.mem_singleton]
      rintro rfl
      exact hk hj
    rw [List.foldl_cons, revisedNext_of_stored hv]
    refine hfirst.trans (ih hrest (hg.modify _ _) (hfirst.placed hplaced) (fun j hj => ?_) _) hne
    obtain ⟨w, hw, hwiring'⟩ := hf j (.tail _ hj)
    exact ⟨w, (hfirst.others (hne j hj)).trans hw, hwiring'⟩

/-- Revising all vertices, each without touching its wiring, tidies all of them. -/
theorem tidied_modifyEach {g : Graph ν} (hg : g.Consistent) (hplaced : g.Placed)
    {f : σ → NodeId → ν → Journaled (ν × σ)}
    (hf : ∀ x k v, g.find? k = some v → Vertex.SameWiring v (f x k v).val.1) (x : σ) :
    Tidied g g.ids (g.modifyEach f x).val.1 := by
  rw [val_modifyEach]
  refine tidied_foldl g.vertices.nodup_keys hg hplaced (fun k hk => ?_) x
  obtain ⟨v, hv⟩ := contains_iff.mp (IdMap.mem_keys_iff.mp hk)
  exact ⟨v, hv, fun x => hf x k v hv⟩

end Graph

end PortGraph
