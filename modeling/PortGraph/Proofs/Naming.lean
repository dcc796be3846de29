import PortGraph.Graph.Copying
import PortGraph.Proofs.Storing

/-!
# New names for vertices

Vertices that are moved or copied to another graph receive new identifiers there, and a renaming
tells which. A renaming acts on slots and on links; where it is injective, renaming a list of links
renames the lists of far ends (`Injective.farEnds_filterMap`).
-/

namespace PortGraph

/-! ## Renaming slots and links -/

namespace Renaming

/-- Different vertices have different new names. -/
def Injective (names : Renaming) : Prop :=
  ∀ ⦃k k' a⦄, names.get? k = some a → names.get? k' = some a → k = k'

/-- The slot under its new name, if its vertex has one. -/
def slot? (names : Renaming) (s : Slot) : Option Slot :=
  (names.get? s.node).map fun node => { s with node }

variable {names : Renaming}

/-- A slot is renamed with its vertex. -/
theorem slot?_eq_some_iff {s t : Slot} :
    names.slot? s = some t ↔ names.get? s.node = some t.node ∧ t.offset = s.offset := by
  obtain ⟨k, i⟩ := s
  obtain ⟨a, j⟩ := t
  unfold slot?
  cases hk : names.get? k with
  | none => simp
  | some b => simp [eq_comm]

/-- The ports of a renamed vertex are renamed with it. -/
theorem slot?_of_get? {k : NodeId} {t : Slot} (hk : names.get? k = some t.node) :
    names.slot? ⟨k, t.offset⟩ = some t :=
  slot?_eq_some_iff.mpr ⟨hk, rfl⟩

/-- Different slots have different new names. -/
theorem Injective.slot? (hinj : names.Injective) {s s' t : Slot} (hs : names.slot? s = some t)
    (hs' : names.slot? s' = some t) : s = s' := by
  obtain ⟨k, i⟩ := s
  obtain ⟨k', i'⟩ := s'
  obtain ⟨hk, hi⟩ := slot?_eq_some_iff.mp hs
  obtain ⟨hk', hi'⟩ := slot?_eq_some_iff.mp hs'
  have hnode : k = k' := hinj hk hk'
  have hoffset : i = i' := hi.symm.trans hi'
  rw [hnode, hoffset]

/-- Renaming a list of slots keeps their multiplicities. -/
theorem Injective.count_filterMap (hinj : names.Injective) {s t : Slot}
    (hs : names.slot? s = some t) (xs : List Slot) :
    (xs.filterMap names.slot?).count t = xs.count s := by
  induction xs with
  | nil => rfl
  | cons x xs ih =>
    rw [List.filterMap_cons, List.count_cons, ← ih]
    by_cases hx : x = s
    · rw [hx, hs]
      simp
    · rw [if_neg (by simpa using hx), Nat.add_zero]
      cases hy : names.slot? x with
      | none => rfl
      | some y =>
        have hyt : y ≠ t := by
          rintro rfl
          exact hx (hinj.slot? hy hs)
        exact List.count_cons_of_ne hyt

/-- What is nobody's new name does not occur among new names. -/
theorem count_filterMap_eq_zero {t : Slot} (ht : ∀ k, names.get? k ≠ some t.node) (xs : List Slot) :
    (xs.filterMap names.slot?).count t = 0 := by
  apply List.count_eq_zero.mpr
  intro hmem
  obtain ⟨s, _, hs⟩ := List.mem_filterMap.mp hmem
  exact ht _ (slot?_eq_some_iff.mp hs).1

/-- Where every vertex has a new name, renaming slots drops none of them. -/
theorem map_some_filterMap {xs : List Slot} (hxs : ∀ t ∈ xs, ∃ a, names.get? t.node = some a) :
    (xs.filterMap names.slot?).map some = xs.map names.slot? := by
  induction xs with
  | nil => rfl
  | cons t rest ih =>
    obtain ⟨a, ha⟩ := hxs t (.head _)
    have ht : names.slot? t = some { t with node := a } := slot?_eq_some_iff.mpr ⟨ha, rfl⟩
    rw [List.filterMap_cons, ht, List.map_cons, List.map_cons, ht,
      ih fun u hu => hxs u (.tail _ hu)]

/-- A link is renamed by renaming both of its ends. -/
theorem renamedLink?_eq (d : Direction) (l : Link) :
    Graph.renamedLink? names l =
      (names.slot? (l.side d)).bind fun s =>
        (names.slot? (l.side d.opposite)).map fun t => .between d s t := by
  obtain ⟨⟨k, i⟩, ⟨k', i'⟩⟩ := l
  unfold Graph.renamedLink? slot?
  cases d with
  | incoming =>
    cases hk : names.get? k <;> cases hk' : names.get? k' <;>
      simp [Link.side, Direction.opposite, hk, hk', Link.between]
  | outgoing =>
    cases hk : names.get? k <;> cases hk' : names.get? k' <;>
      simp [Link.side, Direction.opposite, hk, hk', Link.between]

/-- Each end of a renamed link is the new name of that end. -/
theorem slot?_side {l l' : Link} (hl : Graph.renamedLink? names l = some l') (d : Direction) :
    names.slot? (l.side d) = some (l'.side d) := by
  rw [renamedLink?_eq d, Option.bind_eq_some_iff] at hl
  obtain ⟨s, hs, hfar⟩ := hl
  obtain ⟨t, _, rfl⟩ := Option.map_eq_some_iff.mp hfar
  rw [hs, Link.side_between]

/-- At a renamed port, the far ends of the renamed links are the renamed far ends. -/
theorem Injective.farEnds_filterMap (hinj : names.Injective) {s t : Slot}
    (hs : names.slot? s = some t) (d : Direction) (ls : List Link) :
    Link.farEnds d t (ls.filterMap (Graph.renamedLink? names)) =
      (Link.farEnds d s ls).filterMap names.slot? := by
  induction ls with
  | nil => rfl
  | cons l ls ih =>
    rw [List.filterMap_cons, Link.farEnds_cons, renamedLink?_eq d]
    by_cases hl : l.side d = s
    · rw [if_pos hl, hl, hs, List.filterMap_cons]
      cases hfar : names.slot? (l.side d.opposite) with
      | none => simpa [hfar] using ih
      | some u => simpa [hfar, Link.farEnds_cons] using ih
    · rw [if_neg hl, ← ih]
      cases hnear : names.slot? (l.side d) with
      | none => rfl
      | some u =>
        have hut : u ≠ t := by
          rintro rfl
          exact hl (hinj.slot? hnear hs)
        cases hfar : names.slot? (l.side d.opposite) with
        | none => rfl
        | some u' => simp [Link.farEnds_cons, hut]

/-- No renamed link ends at a port of a vertex that is nobody's new name. -/
theorem farEnds_filterMap_eq_nil {t : Slot} (ht : ∀ k, names.get? k ≠ some t.node) (d : Direction)
    (ls : List Link) : Link.farEnds d t (ls.filterMap (Graph.renamedLink? names)) = [] := by
  apply List.eq_nil_iff_forall_not_mem.mpr
  intro u hu
  obtain ⟨l, _, hl⟩ := List.mem_filterMap.mp (Link.mem_farEnds.mp hu)
  have hs := slot?_side hl d
  rw [Link.side_between] at hs
  exact ht _ (slot?_eq_some_iff.mp hs).1

end Renaming

/-- A vertex whose links are renamed lists the new names of what it listed. -/
theorem Vertex.peers_renameLinks {φ : Flavour} {ν : Type} [Vertex φ ν] [LawfulPorts φ ν]
    (names : Renaming) (d : Direction) (i : Nat) (v : ν) :
    peers d i (renameLinks names.get? v) = (peers d i v).filterMap names.slot? :=
  peers_mapPorts (f := (Port.rename · names.get?)) (g := List.filterMap names.slot?)
    (fun _ => rfl) rfl d i v

end PortGraph
