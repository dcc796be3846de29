import PortGraph.Identity

/-!
# Maps keyed by vertex identifiers

An `IdMap` is a list of entries in strictly ascending order of their keys, so two maps with the same
content are equal (`ext`) and walking the entries visits the keys in order. The lookup laws
(`get?_insert`, `get?_erase`, `get?_mapValues`, `get?_filter`) say all there is to know about the
operations.
-/

namespace PortGraph

/-- A finite map from vertex identifiers, its entries in ascending order. -/
structure IdMap (α : Type) where
  entries : List (NodeId × α)
  ascending : entries.Pairwise fun a b => a.1 < b.1
deriving DecidableEq

/-- The identifiers that vertices received when they were carried from one graph to another. -/
abbrev Renaming := IdMap NodeId

namespace IdMap

variable {α β : Type}

/-! ### Entries -/

/-- The value of the entry with key `k`. -/
def lookup (k : NodeId) : List (NodeId × α) → Option α
  | [] => none
  | (k', a) :: rest => if k' = k then some a else lookup k rest

/-- Puts an entry into its place, over an entry with the same key. -/
def insertEntry (k : NodeId) (a : α) : List (NodeId × α) → List (NodeId × α)
  | [] => [(k, a)]
  | (k', a') :: rest =>
    if k < k' then (k, a) :: (k', a') :: rest
    else if k = k' then (k, a) :: rest
    else (k', a') :: insertEntry k a rest

theorem mem_insertEntry {k : NodeId} {a : α} {e : NodeId × α} {es : List (NodeId × α)}
    (h : e ∈ insertEntry k a es) : e = (k, a) ∨ e ∈ es := by
  induction es with
  | nil => simpa [insertEntry] using h
  | cons x rest ih =>
    rw [insertEntry] at h
    split at h
    · simpa using h
    · split at h
      · rcases List.mem_cons.mp h with h | h
        · exact .inl h
        · exact .inr (.tail _ h)
      · rcases List.mem_cons.mp h with h | h
        · exact .inr (h ▸ .head _)
        · rcases ih h with h | h
          · exact .inl h
          · exact .inr (.tail _ h)

theorem pairwise_insertEntry (k : NodeId) (a : α) {es : List (NodeId × α)}
    (h : es.Pairwise fun a b => a.1 < b.1) :
    (insertEntry k a es).Pairwise fun a b => a.1 < b.1 := by
  induction es with
  | nil => simp [insertEntry]
  | cons x rest ih =>
    obtain ⟨hx, hrest⟩ := List.pairwise_cons.mp h
    rw [insertEntry]
    split
    · next hlt =>
      refine List.pairwise_cons.mpr ⟨fun e he => ?_, h⟩
      rcases List.mem_cons.mp he with rfl | he
      · exact hlt
      · exact NodeId.lt_trans hlt (hx e he)
    · next hlt =>
      split
      · next heq =>
        subst heq
        exact List.pairwise_cons.mpr ⟨fun e he => hx e he, hrest⟩
      · next hne =>
        refine List.pairwise_cons.mpr ⟨fun e he => ?_, ih hrest⟩
        rcases mem_insertEntry he with rfl | he
        · exact NodeId.lt_of_not_lt_of_ne hlt hne
        · exact hx e he

/-! ### Operations -/

/-- The map without entries. -/
def empty : IdMap α := ⟨[], .nil⟩

instance : Inhabited (IdMap α) := ⟨empty⟩

/-- The value stored under a key. -/
def get? (m : IdMap α) (k : NodeId) : Option α := lookup k m.entries

/-- Whether a key has a value. -/
def contains (m : IdMap α) (k : NodeId) : Bool := (m.get? k).isSome

/-- The keys, in ascending order. -/
def keys (m : IdMap α) : List NodeId := m.entries.map Prod.fst

/-- The values, in ascending order of their keys. -/
def values (m : IdMap α) : List α := m.entries.map Prod.snd

/-- The number of entries. -/
def size (m : IdMap α) : Nat := m.entries.length

/-- Stores a value, in place of the one the key had. -/
def insert (m : IdMap α) (k : NodeId) (a : α) : IdMap α :=
  ⟨insertEntry k a m.entries, pairwise_insertEntry k a m.ascending⟩

/-- Keeps the entries that pass a test. -/
def filter (m : IdMap α) (keep : NodeId → α → Bool) : IdMap α :=
  ⟨m.entries.filter fun e => keep e.1 e.2, m.ascending.filter _⟩

/-- Removes a key. -/
def erase (m : IdMap α) (k : NodeId) : IdMap α :=
  m.filter fun k' _ => k' ≠ k

/-- Replaces every value by one computed from its entry. -/
def mapValues (m : IdMap α) (f : NodeId → α → β) : IdMap β :=
  ⟨m.entries.map fun e => (e.1, f e.1 e.2), List.pairwise_map.mpr m.ascending⟩

/-- Changes the value of one key, if it has one. -/
def adjust (m : IdMap α) (k : NodeId) (f : α → α) : IdMap α :=
  m.mapValues fun k' a => if k' = k then f a else a

/-! ### Laws of lookup -/

theorem ext_entries {m n : IdMap α} (h : m.entries = n.entries) : m = n := by
  cases m; cases n; cases h; rfl

theorem lookup_insertEntry (k k' : NodeId) (a : α) (es : List (NodeId × α)) :
    lookup k' (insertEntry k a es) = if k = k' then some a else lookup k' es := by
  induction es with
  | nil => rfl
  | cons x rest ih =>
    rw [insertEntry]
    split
    · rfl
    · split
      · next heq =>
        by_cases h : k = k' <;> simp [lookup, h, ← heq]
      · next hne =>
        by_cases h : x.1 = k'
        · have : k ≠ k' := fun hk => hne (hk.trans h.symm)
          simp [lookup, h, this]
        · simp [lookup, h, ih]

theorem lookup_eq_none_of_forall_ne {k : NodeId} {es : List (NodeId × α)}
    (h : ∀ e ∈ es, e.1 ≠ k) : lookup k es = none := by
  induction es with
  | nil => rfl
  | cons x rest ih =>
    rw [lookup, if_neg (h x (.head _))]
    exact ih fun e he => h e (.tail _ he)

theorem lookup_eq_some_iff {k : NodeId} {a : α} {es : List (NodeId × α)}
    (h : es.Pairwise fun a b => a.1 < b.1) : lookup k es = some a ↔ (k, a) ∈ es := by
  induction es with
  | nil => simp [lookup]
  | cons x rest ih =>
    obtain ⟨hx, hrest⟩ := List.pairwise_cons.mp h
    rw [lookup]
    split
    · next hk =>
      subst hk
      refine ⟨fun h => ?_, fun h => ?_⟩
      · cases h; exact .head _
      · rcases List.mem_cons.mp h with h | h
        · rw [← h]
        · exact absurd (hx _ h) (NodeId.lt_irrefl _)
    · next hk =>
      rw [ih hrest]
      refine ⟨fun h => .tail _ h, fun h => ?_⟩
      rcases List.mem_cons.mp h with h | h
      · exact absurd (h ▸ rfl) hk
      · exact h

theorem get?_eq_some_iff {m : IdMap α} {k : NodeId} {a : α} :
    m.get? k = some a ↔ (k, a) ∈ m.entries :=
  lookup_eq_some_iff m.ascending

@[simp] theorem get?_empty (k : NodeId) : (empty : IdMap α).get? k = none := rfl

theorem get?_insert (m : IdMap α) (k k' : NodeId) (a : α) :
    (m.insert k a).get? k' = if k = k' then some a else m.get? k' :=
  lookup_insertEntry k k' a m.entries

theorem get?_filter (m : IdMap α) (keep : NodeId → α → Bool) (k : NodeId) :
    (m.filter keep).get? k = (m.get? k).filter (keep k) := by
  refine Option.ext fun a => ?_
  rw [get?_eq_some_iff, Option.filter_eq_some_iff, get?_eq_some_iff]
  simp [filter]

theorem get?_erase (m : IdMap α) (k k' : NodeId) :
    (m.erase k).get? k' = if k' = k then none else m.get? k' := by
  rw [erase, get?_filter]
  by_cases h : k' = k <;> cases m.get? k' <;> simp [h]

theorem get?_mapValues (m : IdMap α) (f : NodeId → α → β) (k : NodeId) :
    (m.mapValues f).get? k = (m.get? k).map (f k) := by
  obtain ⟨es, hes⟩ := m
  simp only [get?, mapValues]
  clear hes
  induction es with
  | nil => rfl
  | cons x rest ih =>
    by_cases h : x.1 = k
    · subst h; simp [lookup]
    · simp [lookup, h, ih]

theorem get?_adjust (m : IdMap α) (k k' : NodeId) (f : α → α) :
    (m.adjust k f).get? k' = if k' = k then (m.get? k').map f else m.get? k' := by
  rw [adjust, get?_mapValues]
  by_cases h : k' = k <;> simp [h]

theorem mem_keys_iff {m : IdMap α} {k : NodeId} : k ∈ m.keys ↔ (m.get? k).isSome := by
  rw [Option.isSome_iff_exists]
  simp only [get?_eq_some_iff, keys, List.mem_map]
  constructor
  · rintro ⟨⟨k', a⟩, h, rfl⟩; exact ⟨a, h⟩
  · rintro ⟨a, h⟩; exact ⟨(k, a), h, rfl⟩

/-- Maps with the same content are equal. -/
theorem ext {m n : IdMap α} (h : ∀ k, m.get? k = n.get? k) : m = n := by
  obtain ⟨es, hes⟩ := m
  obtain ⟨fs, hfs⟩ := n
  simp only [get?] at h
  apply ext_entries
  simp only
  induction es generalizing fs with
  | nil =>
    cases fs with
    | nil => rfl
    | cons y _ => have := h y.1; simp [lookup] at this
  | cons x rest ih =>
    cases fs with
    | nil => have := h x.1; simp [lookup] at this
    | cons y rest' =>
      obtain ⟨hx, hrest⟩ := List.pairwise_cons.mp hes
      obtain ⟨hy, hrest'⟩ := List.pairwise_cons.mp hfs
      have hxy : (x.1, x.2) ∈ y :: rest' :=
        (lookup_eq_some_iff hfs).mp ((h x.1).symm.trans (by simp [lookup]))
      have hyx : (y.1, y.2) ∈ x :: rest :=
        (lookup_eq_some_iff hes).mp ((h y.1).trans (by simp [lookup]))
      have heq : x = y := by
        rcases List.mem_cons.mp hxy with hxy | hxy
        · exact hxy
        · rcases List.mem_cons.mp hyx with hyx | hyx
          · exact hyx.symm
          · exact absurd (NodeId.lt_trans (hy _ hxy) (hx _ hyx)) (NodeId.lt_irrefl _)
      subst heq
      refine congrArg _ (ih hrest _ hrest' fun k => ?_)
      by_cases hk : x.1 = k
      · subst hk
        rw [lookup_eq_none_of_forall_ne, lookup_eq_none_of_forall_ne]
        · exact fun e he heq => NodeId.lt_irrefl _ (heq ▸ hy e he)
        · exact fun e he heq => NodeId.lt_irrefl _ (heq ▸ hx e he)
      · have := h k
        simpa [lookup, hk] using this

end IdMap

end PortGraph
