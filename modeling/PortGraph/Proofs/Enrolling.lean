import Mathlib.Data.List.Nodup
import PortGraph.Proofs.Naming

/-!
# Taking vertices in, one after the other

Moving and copying vertices both come to the same: a list of vertices is stored in another graph,
one after the other, each of them told the membership that it receives, and a renaming records under
which identifier. `enrol` does this and nothing else.

`Enrolled dest es h names` says what comes of it where the vertices are listed in ascending order of
their old names: the new names are the identifiers that follow the counter of `dest`, in the same
order; each of them holds the vertex made for it; and all other identifiers hold what they held.
-/

namespace PortGraph

/-! ## Entries in ascending order -/

namespace IdMap

variable {α : Type}

/-- An entry with a key above all others is put at the end. -/
theorem insertEntry_of_forall_lt {k : NodeId} (a : α) {es : List (NodeId × α)}
    (hk : ∀ e ∈ es, e.1 < k) : insertEntry k a es = es ++ [(k, a)] := by
  induction es with
  | nil => rfl
  | cons e rest ih =>
    have hlt : e.1 < k := hk e (.head _)
    have hnot : ¬k < e.1 := fun h => NodeId.lt_irrefl _ (NodeId.lt_trans hlt h)
    have hne : k ≠ e.1 := by
      rintro rfl
      exact NodeId.lt_irrefl _ hlt
    rw [insertEntry, if_neg hnot, if_neg hne, ih fun x hx => hk x (.tail _ hx)]
    rfl

/-- So it is with maps. -/
theorem entries_insert_of_forall_lt {m : IdMap α} {k : NodeId} (hk : ∀ j ∈ m.keys, j < k) (a : α) :
    (m.insert k a).entries = m.entries ++ [(k, a)] :=
  insertEntry_of_forall_lt a fun e he => hk e.1 (List.mem_map.mpr ⟨e, he, rfl⟩)

/-- The values of a map are those that are stored under some key. -/
theorem mem_values_iff {m : IdMap α} {a : α} : a ∈ m.values ↔ ∃ k, m.get? k = some a := by
  simp only [values, List.mem_map, get?_eq_some_iff]
  constructor
  · rintro ⟨⟨k, b⟩, hmem, rfl⟩
    exact ⟨k, hmem⟩
  · rintro ⟨k, hmem⟩
    exact ⟨(k, a), hmem, rfl⟩

end IdMap

/-- A renaming with different new names is injective. -/
theorem Renaming.injective_of_nodup_values {names : Renaming} (h : names.values.Nodup) :
    names.Injective := by
  intro k k' a hk hk'
  have hmem := IdMap.get?_eq_some_iff.mp hk
  have hmem' := IdMap.get?_eq_some_iff.mp hk'
  exact congrArg Prod.fst (List.inj_on_of_nodup_map h hmem hmem' rfl)

/-- The vertices `ids` have new names, which are the identifiers from `first` on, in the same order.
-/
structure Renaming.Numbering (names : Renaming) (ids : List NodeId) (first : NodeId) : Prop where
  keys_eq : names.keys = ids
  values_eq : names.values.map NodeId.val = List.range' first.val ids.length
  strictMono {k k' a a' : NodeId} (hk : names.get? k = some a) (hk' : names.get? k' = some a')
    (hlt : k < k') : a < a'

/-- Consecutive new names are in the order of the old ones. -/
theorem Renaming.numbering_of_values {names : Renaming} {first : NodeId} {count : Nat}
    (hvalues : names.values.map NodeId.val = List.range' first.val count) :
    names.Numbering names.keys first := by
  have hcount : count = names.keys.length := by
    have hlen := congrArg List.length hvalues
    rw [List.length_map, List.length_range'] at hlen
    rw [← hlen, IdMap.values, IdMap.keys, List.length_map, List.length_map]
  have hpairwise : (names.values.map NodeId.val).Pairwise (· < ·) := by
    rw [hvalues]
    exact List.pairwise_lt_range'
  unfold IdMap.values at hpairwise
  rw [List.pairwise_map, List.pairwise_map] at hpairwise
  -- of two entries the one with the smaller key comes first
  let Mono (x y : NodeId × NodeId) : Prop := x.1 < y.1 → x.2 < y.2
  have hafter : names.entries.Pairwise Mono := by
    refine List.Pairwise.imp ?_ hpairwise
    intro x y hlt _
    exact hlt
  have hbefore : names.entries.Pairwise (flip Mono) := by
    refine List.Pairwise.imp ?_ names.ascending
    intro x y hlt hgt
    exact absurd (NodeId.lt_trans hlt hgt) (NodeId.lt_irrefl _)
  have hmono := hafter.forall_of_forall_of_flip
    (fun x _ hlt => absurd hlt (NodeId.lt_irrefl x.1)) hbefore
  refine ⟨rfl, hcount ▸ hvalues, fun hk hk' hlt => ?_⟩
  exact hmono (IdMap.get?_eq_some_iff.mp hk) (IdMap.get?_eq_some_iff.mp hk') hlt

namespace Graph

variable {φ : Flavour} {ν : Type}

/-! ## Enrolling -/

/-- A vertex to be taken in: its old name, and what it is made for its new membership. -/
abbrev Recruit (ν : Type) := NodeId × (Membership → ν)

/-- The graph and the names after vertices were stored one after the other, each of them made for
the membership that it receives. -/
def enrol (g : Graph ν) (names : Renaming) : List (Recruit ν) → Graph ν × Renaming
  | [] => (g, names)
  | (k, make) :: rest => (g.store (make ⟨g.id, g.next⟩)).enrol (names.insert k g.next) rest

/-- `h` is `dest` after the vertices `es` were taken in under the new names `names`. -/
structure Enrolled (dest : Graph ν) (es : List (Recruit ν)) (h : Graph ν) (names : Renaming) :
    Prop where
  id_eq : h.id = dest.id
  next_eq : h.next.val = dest.next.val + es.length
  keys_eq : names.keys = es.map Prod.fst
  /-- The new names follow the counter. -/
  values_eq : names.values.map NodeId.val = List.range' dest.next.val es.length
  bounded : h.Bounded
  /-- Each vertex is made for its new name, and stored there. -/
  stored {e : Recruit ν} (he : e ∈ es) :
    ∃ a, names.get? e.1 = some a ∧ h.find? a = some (e.2 ⟨dest.id, a⟩)
  /-- Nothing else is touched. -/
  kept {a : NodeId} (ha : ∀ k, names.get? k ≠ some a) : h.find? a = dest.find? a

namespace Enrolled

variable {dest h : Graph ν} {es : List (Recruit ν)} {names : Renaming}

/-- At first nobody is taken in. -/
theorem start (hdest : dest.Bounded) : Enrolled dest [] dest .empty where
  id_eq := rfl
  next_eq := rfl
  keys_eq := rfl
  values_eq := rfl
  bounded := hdest
  stored he := absurd he List.not_mem_nil
  kept _ := rfl

/-- The old names are those of the list. -/
theorem exists_get?_iff (hen : Enrolled dest es h names) (k : NodeId) :
    (∃ a, names.get? k = some a) ↔ ∃ e ∈ es, e.1 = k := by
  rw [← Option.isSome_iff_exists, ← IdMap.mem_keys_iff, hen.keys_eq, List.mem_map]

/-- The new names follow the counter, in the order of the old ones. -/
theorem numbering (hen : Enrolled dest es h names) :
    names.Numbering (es.map Prod.fst) dest.next := by
  rw [← hen.keys_eq]
  exact Renaming.numbering_of_values hen.values_eq

/-- New names were not handed out before, and are below the counter. -/
theorem between_of_get? (hen : Enrolled dest es h names) {k a : NodeId}
    (hk : names.get? k = some a) : dest.next ≤ a ∧ a < h.next := by
  have hmem : a.val ∈ names.values.map NodeId.val :=
    List.mem_map.mpr ⟨a, IdMap.mem_values_iff.mpr ⟨k, hk⟩, rfl⟩
  rw [hen.values_eq, List.mem_range'_1] at hmem
  rw [NodeId.le_def, NodeId.lt_def, hen.next_eq]
  exact hmem

/-- Different vertices have different new names. -/
theorem injective (hen : Enrolled dest es h names) : names.Injective := by
  apply Renaming.injective_of_nodup_values
  have hnodup : (names.values.map NodeId.val).Nodup := by
    rw [hen.values_eq]
    exact List.nodup_range'
  exact hnodup.of_map

/-- A new name belonged to no vertex before. -/
theorem find?_dest_eq_none (hen : Enrolled dest es h names) (hdest : dest.Bounded) {k a : NodeId}
    (hk : names.get? k = some a) : dest.find? a = none := by
  apply not_contains_iff.mp
  intro hc
  exact NodeId.lt_irrefl _ (Nat.lt_of_lt_of_le (hdest a hc) (hen.between_of_get? hk).1)

/-- An identifier that was in use is nobody's new name. -/
theorem not_named_of_find? (hen : Enrolled dest es h names) (hdest : dest.Bounded) {a : NodeId}
    {v : ν} (hv : dest.find? a = some v) (k : NodeId) : names.get? k ≠ some a := by
  intro hk
  rw [hen.find?_dest_eq_none hdest hk] at hv
  cases hv

/-- Whatever is stored was there before or was taken in. -/
theorem stored_iff (hen : Enrolled dest es h names) (a : NodeId) :
    h.contains a = true ↔ dest.contains a = true ∨ ∃ k, names.get? k = some a := by
  by_cases hnamed : ∃ k, names.get? k = some a
  · obtain ⟨k, hk⟩ := hnamed
    obtain ⟨e, he, rfl⟩ := (hen.exists_get?_iff k).mp ⟨a, hk⟩
    obtain ⟨b, hb, hfind⟩ := hen.stored he
    have hab : b = a := Option.some.inj (hb.symm.trans hk)
    exact iff_of_true (contains_iff.mpr ⟨_, hab ▸ hfind⟩) (.inr ⟨_, hk⟩)
  · rw [contains_iff, contains_iff, hen.kept fun k hk => hnamed ⟨k, hk⟩]
    exact (or_iff_left hnamed).symm

/-- One more vertex is taken in after the others, under the next identifier. -/
theorem step (hen : Enrolled dest es h names) {k : NodeId} (hk : ∀ e ∈ es, e.1 < k)
    (make : Membership → ν) :
    Enrolled dest (es ++ [(k, make)]) (h.store (make ⟨h.id, h.next⟩)) (names.insert k h.next) := by
  have hget (k' : NodeId) : (names.insert k h.next).get? k' =
      if k = k' then some h.next else names.get? k' :=
    IdMap.get?_insert names k k' h.next
  have hlast : ∀ j ∈ names.keys, j < k := by
    intro j hj
    rw [hen.keys_eq] at hj
    obtain ⟨e, he, rfl⟩ := List.mem_map.mp hj
    exact hk e he
  have hentries := IdMap.entries_insert_of_forall_lt hlast h.next
  refine ⟨hen.id_eq, ?_, ?_, ?_, hen.bounded.store _, ?_, ?_⟩
  · have hnext : (h.store (make ⟨h.id, h.next⟩)).next.val = h.next.val + 1 := rfl
    rw [hnext, hen.next_eq, List.length_append]
    rfl
  · unfold IdMap.keys
    rw [hentries, List.map_append, List.map_append, ← hen.keys_eq]
    rfl
  · unfold IdMap.values
    rw [hentries, List.map_append, List.map_append, List.length_append]
    change names.values.map NodeId.val ++ [h.next.val] = _
    rw [hen.values_eq, hen.next_eq, List.range'_append_1.symm]
    rfl
  · intro e he
    rcases List.mem_append.mp he with hmem | heq
    · obtain ⟨a, ha, hfind⟩ := hen.stored hmem
      have hne : k ≠ e.1 := by
        rintro rfl
        exact NodeId.lt_irrefl _ (hk e hmem)
      have hbelow : a ≠ h.next := by
        rintro rfl
        exact NodeId.lt_irrefl _ (hen.between_of_get? ha).2
      refine ⟨a, by rw [hget, if_neg hne, ha], ?_⟩
      rw [find?_store, if_neg hbelow, hfind]
    · rw [List.mem_singleton.mp heq]
      refine ⟨h.next, by rw [hget, if_pos rfl], ?_⟩
      rw [find?_store, if_pos rfl, hen.id_eq]
  · intro a ha
    have hnew : a ≠ h.next := by
      rintro rfl
      exact ha k (by rw [hget, if_pos rfl])
    rw [find?_store, if_neg hnew]
    apply hen.kept
    intro k' hk'
    by_cases hkk : k = k'
    · -- the last vertex had no name before
      have hmem : k' ∈ names.keys := IdMap.mem_keys_iff.mpr (Option.isSome_iff_exists.mpr ⟨a, hk'⟩)
      exact NodeId.lt_irrefl _ (hkk ▸ hlast k' hmem)
    · exact ha k' (by rw [hget, if_neg hkk, hk'])

/-- More vertices are taken in after the others. -/
theorem enrol {es' : List (Recruit ν)} (hen : Enrolled dest es h names)
    (hes : (es ++ es').Pairwise fun e e' => e.1 < e'.1) :
    Enrolled dest (es ++ es') (h.enrol names es').1 (h.enrol names es').2 := by
  induction es' generalizing es h names with
  | nil =>
    rw [List.append_nil]
    exact hen
  | cons e rest ih =>
    have hk : ∀ x ∈ es, x.1 < e.1 :=
      fun x hx => (List.pairwise_append.mp hes).2.2 x hx e (.head _)
    rw [List.append_cons] at hes ⊢
    exact ih (hen.step hk e.2) hes

end Enrolled

/-- Vertices listed in ascending order of their old names are taken in by a bounded graph. -/
theorem enrolled_enrol {dest : Graph ν} (hdest : dest.Bounded) {es : List (Recruit ν)}
    (hes : es.Pairwise fun e e' => e.1 < e'.1) :
    Enrolled dest es (dest.enrol .empty es).1 (dest.enrol .empty es).2 :=
  (Enrolled.start hdest).enrol hes

/-- At a port of a vertex that was taken in, which nobody listed before, renamed links are the links
of the port that it stands for, renamed. -/
theorem Enrolled.farEnds_renamed [Vertex φ ν] {dest h : Graph ν} {es : List (Recruit ν)}
    {names : Renaming} (hen : Enrolled dest es h names) (hdest : dest.Bounded) {s t : Slot}
    (hs : names.slot? s = some t) (d : Direction) (ls : List Link) :
    dest.peers d t ++ Link.farEnds d t (ls.filterMap (renamedLink? names)) =
      (Link.farEnds d s ls).filterMap names.slot? := by
  have hnone := hen.find?_dest_eq_none hdest (Renaming.slot?_eq_some_iff.mp hs).1
  rw [peers_eq_nil_of_find? hnone, List.nil_append, hen.injective.farEnds_filterMap hs]

end Graph

end PortGraph
