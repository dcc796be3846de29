import PortGraph.Node
import PortGraph.Proofs.Removing

/-!
# Storing vertices

A new vertex is stored under the counter of its graph. In a graph whose identifiers are all below
its counter (`Bounded`) the place is free, so the vertex is never refused; the counter moves on and
the graph stays bounded. Whatever connections the vertex comes with are cleared before, and what it
does to its ports when it joins makes no new ones, so that nothing changes in the lists of opposites
of the graph (`peers_insert`).

A vertex is *steady* if joining, leaving and copying leave its row of ports as it is. Weighted
vertices are.
-/

namespace PortGraph

/-! ## Steady vertices -/

/-- Vertices whose ports do not change when they join or leave a graph, and whose copies have as
many ports. -/
class SteadyVertex (φ : outParam Flavour) (ν : Type) [Vertex φ ν] : Prop
    extends LawfulVertex φ ν where
  ports_onJoin (m : Option Membership) (v : ν) (d : Direction) :
    Vertex.ports d (Vertex.onJoin m v).val = Vertex.ports d v
  ports_onLeave (v : ν) (d : Direction) : Vertex.ports d (Vertex.onLeave v).val = Vertex.ports d v
  length_ports_copy (v : ν) (d : Direction) :
    (Vertex.ports d (Vertex.copy v)).length = (Vertex.ports d v).length

instance {φ : Flavour} {ω : Type} : SteadyVertex φ (Node φ ω) where
  ports_onJoin _ _ d := by cases d <;> rfl
  ports_onLeave _ d := by cases d <;> rfl
  length_ports_copy _ d := by cases d <;> exact List.length_map _

namespace Vertex

variable {φ : Flavour} {ν : Type} [Vertex φ ν]

/-- A vertex that sheds connections lists at a position what it listed before, or nothing. -/
theorem peers_of_sheds {v w : ν} (h : Sheds v w) (d : Direction) (i : Nat) :
    peers d i w = peers d i v ∨ peers d i w = [] := by
  unfold peers
  cases hp : port? d i w with
  | none => exact .inr rfl
  | some p =>
    rcases h d i p hp with hfree | hsame
    · exact .inr hfree
    · rw [hsame]
      exact .inl rfl

/-- `w` has as many ports as `v`, but no connections. -/
structure Blank (v w : ν) : Prop where
  length_ports (d : Direction) : (ports d w).length = (ports d v).length
  peers_eq_nil (d : Direction) (i : Nat) : peers d i w = []

/-- A blank vertex has ports at the same positions. -/
theorem Blank.isSome_port? {v w : ν} (h : Blank v w) (d : Direction) (i : Nat) :
    (port? d i w).isSome = (port? d i v).isSome := by
  unfold port?
  rw [Bool.eq_iff_iff, isSome_getElem?, isSome_getElem?, h.length_ports]

/-- A vertex that was cleared has no connections after it joined. -/
theorem peers_onJoin_clearLinks [LawfulPorts φ ν] [PassiveVertex φ ν] (m : Option Membership)
    (v : ν) (d : Direction) (i : Nat) : peers d i (onJoin m (clearLinks v)).val = [] :=
  unconnected_iff.mp (PassiveVertex.unconnected_onJoin m (unconnected_clearLinks v)) d i

/-- A copy is blank after it was cleared and joined. -/
theorem blank_onJoin_copy [SteadyVertex φ ν] (m : Option Membership) (v : ν) :
    Blank v (onJoin m (clearLinks (copy v))).val where
  length_ports d := by
    have hclear := ports_mapPorts Port.clear (copy v) d
    rw [SteadyVertex.ports_onJoin, clearLinks, hclear, List.length_map,
      SteadyVertex.length_ports_copy]
  peers_eq_nil := peers_onJoin_clearLinks m (copy v)

end Vertex

namespace Graph

variable {φ : Flavour} {ν : Type}

/-! ## Bounded graphs -/

/-- Every identifier in use is below the counter. -/
def Bounded (g : Graph ν) : Prop := ∀ k, g.contains k = true → k < g.next

/-- A graph without vertices is bounded. -/
theorem bounded_of_vertices_eq_empty {g : Graph ν} (h : g.vertices = .empty) : g.Bounded := by
  intro k hk
  rw [contains, h] at hk
  cases hk

/-- A graph stays bounded while no identifier comes into use and the counter does not go back. -/
theorem Bounded.mono {g h : Graph ν} (hg : g.Bounded) (hnext : g.next ≤ h.next)
    (hsub : ∀ k, h.contains k = true → g.contains k = true) : h.Bounded := by
  intro k hk
  exact Nat.lt_of_lt_of_le (hg k (hsub k hk)) hnext

/-- The identifier for the next vertex of a bounded graph is not in use. -/
theorem Bounded.not_contains_next {g : Graph ν} (hg : g.Bounded) : ¬g.contains g.next = true :=
  fun h => NodeId.lt_irrefl _ (hg _ h)

variable [Vertex φ ν]

theorem Rewired.bounded {g h : Graph ν} (hr : Rewired g h) (hg : g.Bounded) : h.Bounded := by
  apply hg.mono (Nat.le_of_eq (congrArg NodeId.val hr.next_eq).symm)
  intro k hk
  rwa [hr.contains_eq] at hk

theorem Excision.bounded {g h : Graph ν} {gone : NodeId → Bool} (he : Excision g h gone)
    (hg : g.Bounded) : h.Bounded := by
  apply hg.mono (Nat.le_of_eq (congrArg NodeId.val he.next_eq).symm)
  intro k hk
  rw [he.contains_eq, Bool.and_eq_true] at hk
  exact hk.1

/-! ## Adopting -/

/-- The graph after a vertex was stored as it is under the next identifier. -/
def store (g : Graph ν) (v : ν) : Graph ν :=
  { g with vertices := g.vertices.insert g.next v, next := g.next.next }

/-- The vertices after one of them was stored. -/
theorem find?_store (g : Graph ν) (v : ν) (k : NodeId) :
    (g.store v).find? k = if k = g.next then some v else g.find? k := by
  have hinsert := IdMap.get?_insert g.vertices g.next k v
  by_cases hk : k = g.next
  · rw [if_pos hk.symm] at hinsert
    rw [if_pos hk]
    exact hinsert
  · rw [if_neg (Ne.symm hk)] at hinsert
    rw [if_neg hk]
    exact hinsert

/-- A vertex is adopted if its place is free: it joins, and is stored. -/
theorem adopt_of_not_contains {g : Graph ν} (h : ¬g.contains g.next = true) (v : ν) :
    (g.adopt v).val = (g.store (Vertex.onJoin (some ⟨g.id, g.next⟩) v).val, .ok g.next) := by
  have hfree : ¬({ g with next := g.next.next } : Graph ν).contains g.next = true := h
  unfold adopt
  simp only [if_neg hfree]
  rfl

/-- A vertex is refused if its place is taken. -/
theorem adopt_of_contains {g : Graph ν} (h : g.contains g.next = true) (v : ν) :
    (g.adopt v).val = ({ g with next := g.next.next }, .error (.conflictingId g.next)) := by
  have htaken : ({ g with next := g.next.next } : Graph ν).contains g.next = true := h
  unfold adopt
  simp only [if_pos htaken]
  rfl

/-- A bounded graph is bounded after a vertex was stored in it. -/
theorem Bounded.store {g : Graph ν} (hg : g.Bounded) (v : ν) : (g.store v).Bounded := by
  intro k hk
  have hnext : g.next < (g.store v).next := NodeId.lt_next g.next
  obtain ⟨w, hw⟩ := contains_iff.mp hk
  rw [find?_store] at hw
  by_cases hkn : k = g.next
  · rw [hkn]
    exact hnext
  · rw [if_neg hkn] at hw
    exact NodeId.lt_trans (hg k (contains_iff.mpr ⟨w, hw⟩)) hnext

/-- A vertex without connections adds nothing to the lists of opposites. -/
theorem peers_store {g : Graph ν} (h : ¬g.contains g.next = true) {v : ν}
    (hv : ∀ d i, Vertex.peers d i v = []) (d : Direction) (s : Slot) :
    (g.store v).peers d s = g.peers d s := by
  have hfind := g.find?_store v s.node
  by_cases hs : s.node = g.next
  · have habsent : g.find? s.node = none := by
      rw [hs]
      exact Option.not_isSome_iff_eq_none.mp h
    rw [if_pos hs] at hfind
    rw [peers_eq_of_find? hfind, hv, peers_eq_nil_of_find? habsent]
  · rw [if_neg hs] at hfind
    exact peers_congr (port?_congr hfind)

/-! ## Inserting -/

/-- Inserting a vertex changes no list of opposites. -/
theorem peers_insert [LawfulPorts φ ν] [PassiveVertex φ ν] (g : Graph ν) (v : ν) (d : Direction)
    (s : Slot) : (g.insert v).val.1.peers d s = g.peers d s := by
  unfold insert
  by_cases h : g.contains g.next = true
  · rw [adopt_of_contains h]
    rfl
  · rw [adopt_of_not_contains h]
    exact peers_store h (Vertex.peers_onJoin_clearLinks _ v) d s

/-- Inserting a vertex, whatever it records, keeps a graph consistent. -/
theorem Consistent.insert [LawfulPorts φ ν] [PassiveVertex φ ν] {g : Graph ν} (hg : g.Consistent)
    (v : ν) : (g.insert v).val.1.Consistent :=
  hg.of_peers_eq (g.peers_insert v)

/-- A bounded graph has the identifier for a new vertex free: the vertex is cleared, it joins, and
is stored. -/
theorem Bounded.val_insert {g : Graph ν} (hg : g.Bounded) (v : ν) :
    (g.insert v).val =
      (g.store (Vertex.onJoin (some ⟨g.id, g.next⟩) (Vertex.clearLinks v)).val, .ok g.next) := by
  rw [Graph.insert, adopt_of_not_contains hg.not_contains_next]

theorem insert_snd {g : Graph ν} (hg : g.Bounded) (v : ν) : (g.insert v).val.2 = .ok g.next := by
  rw [hg.val_insert]

/-- Inserting a vertex keeps a graph bounded. -/
theorem Bounded.insert {g : Graph ν} (hg : g.Bounded) (v : ν) : (g.insert v).val.1.Bounded := by
  rw [hg.val_insert]
  exact hg.store _

/-- The other vertices are left alone. -/
theorem Bounded.find?_insert {g : Graph ν} (hg : g.Bounded) (v : ν) {k : NodeId} {w : ν}
    (hw : g.find? k = some w) : (g.insert v).val.1.find? k = some w := by
  rw [hg.val_insert, find?_store, if_neg, hw]
  rintro rfl
  exact hg.not_contains_next (contains_iff.mpr ⟨w, hw⟩)

end Graph

end PortGraph
