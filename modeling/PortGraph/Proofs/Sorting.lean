import PortGraph.Node
import PortGraph.Proofs.Connecting
import PortGraph.Proofs.Moving
import PortGraph.Proofs.Searching

/-!
# Sorting along connections

A sort emits every vertex once, and each after the vertices next to it in the direction of the sort,
unless these lead to it. This holds on every graph (`sublist_sort`).

The ends of a connection of a consistent graph are next to each other in either direction. So unless
its input vertex leads back to its output vertex, the output vertex comes first from upstream and
last from downstream. On a graph without cycles this is so for every connection, and on a cycle with
a tail for the connections from the cycle to the tail.
-/

namespace PortGraph

/-- Ways do not lead out of a set of vertices that has all vertices next to its own. -/
theorem Leads.mem_of_closed {next : NodeId → List NodeId} {ids : List NodeId}
    (hclosed : ∀ a ∈ ids, ∀ b ∈ next a, b ∈ ids) {u v : NodeId} (h : Leads next u v)
    (hu : u ∈ ids) : v ∈ ids := by
  induction h with
  | refl => exact hu
  | tail _ hstep ih => exact hclosed _ ih _ hstep

namespace Graph

variable {φ : Flavour} {ν : Type} [Vertex φ ν]

/-! ## What a sort emits -/

/-- A sort emits the vertices in the order in which the search leaves them. -/
theorem val_sort (g : Graph ν) (d : Direction) :
    (g.sort d).val = (Search.run g.ids (g.neighbours d) (Search.start g.ids)).order := by
  change (g.sort d).val = (g.search d).order
  unfold sort
  generalize g.search d = s
  obtain ⟨_, _, order, _ | id⟩ := s <;> rfl

/-- A sort emits every vertex once. -/
theorem sort_perm (g : Graph ν) (d : Direction) : (g.sort d).val.Perm g.ids := by
  rw [val_sort]
  exact Search.order_run_perm g.vertices.nodup_keys _

/-- Only a stored vertex has others next to it. -/
theorem contains_of_mem_neighbours {g : Graph ν} {d : Direction} {u v : NodeId}
    (h : u ∈ g.neighbours d v) : g.contains v = true := by
  unfold neighbours at h
  cases hv : g.find? v with
  | none => rw [hv] at h; cases h
  | some w => exact contains_iff.mpr ⟨w, hv⟩

/-- A sort emits a vertex after those next to it, unless they lead to it. -/
theorem sublist_sort {g : Graph ν} {d : Direction} {u v : NodeId} (hu : g.contains u = true)
    (hnext : u ∈ g.neighbours d v) (hlead : ¬Leads (g.neighbours d) u v) :
    [u, v].Sublist (g.sort d).val := by
  rw [val_sort]
  exact Search.sublist_order_run g.vertices.nodup_keys (IdMap.mem_keys_iff.mpr hu)
    (IdMap.mem_keys_iff.mpr (contains_of_mem_neighbours hnext)) hnext hlead

/-! ## Neighbours in a consistent graph -/

/-- The vertices next to a vertex are those whose ports its ports list. -/
theorem mem_neighbours {g : Graph ν} {d : Direction} {u v : NodeId} :
    u ∈ g.neighbours d v ↔ ∃ i, ∃ t ∈ g.peers d ⟨v, i⟩, t.node = u := by
  unfold neighbours
  cases hv : g.find? v with
  | none =>
    constructor
    · intro h
      cases h
    · rintro ⟨i, t, ht, _⟩
      rw [peers_eq_nil_of_find? hv] at ht
      cases ht
  | some w =>
    have hpeers (i : Nat) : g.peers d ⟨v, i⟩ = Vertex.peers d i w := peers_eq_of_find? hv
    simp only [Vertex.neighbours, List.mem_eraseDups, List.mem_flatMap, List.mem_map, hpeers]
    constructor
    · rintro ⟨p, hp, t, ht, rfl⟩
      obtain ⟨i, hi⟩ := List.mem_iff_getElem?.mp hp
      refine ⟨i, t, ?_, rfl⟩
      unfold Vertex.peers Vertex.port?
      rw [hi]
      exact ht
    · rintro ⟨i, t, ht, rfl⟩
      obtain ⟨p, hp⟩ := Vertex.exists_port?_of_mem_peers ht
      unfold Vertex.peers at ht
      rw [hp] at ht
      exact ⟨p, List.mem_of_getElem? hp, t, ht, rfl⟩

namespace Consistent

variable {g : Graph ν}

/-- Of two connected vertices each is next to the other. -/
theorem mem_neighbours_comm (hg : g.Consistent) {d : Direction} {u v : NodeId} :
    u ∈ g.neighbours d v ↔ v ∈ g.neighbours d.opposite u := by
  have hturn {d : Direction} {u v : NodeId} (h : u ∈ g.neighbours d v) :
      v ∈ g.neighbours d.opposite u := by
    obtain ⟨i, t, ht, rfl⟩ := mem_neighbours.mp h
    exact mem_neighbours.mpr ⟨t.offset, ⟨v, i⟩, hg.mem_comm.mp ht, rfl⟩
  constructor
  · exact hturn
  · intro h
    have hback := hturn h
    rwa [Direction.opposite_opposite] at hback

/-- A way in one direction is a way back in the other. -/
theorem leads_comm (hg : g.Consistent) {d : Direction} {u v : NodeId}
    (h : Leads (g.neighbours d) u v) : Leads (g.neighbours d.opposite) v u := by
  induction h with
  | refl => exact .refl
  | tail _ hstep ih => exact ih.head (hg.mem_neighbours_comm.mp hstep)

/-- The ends of a connection are next to each other. -/
theorem mem_neighbours_of_connected (hg : g.Consistent) {l : Link} (hl : 0 < g.multiplicity l)
    (d : Direction) : (l.side d.opposite).node ∈ g.neighbours d (l.side d).node := by
  have hmem : l.side d.opposite ∈ g.peers d (l.side d) := by
    rw [← List.count_pos_iff, hg.count_peers, Link.between_side]
    exact hl
  exact mem_neighbours.mpr ⟨(l.side d).offset, _, hmem, rfl⟩

/-- Both ends of a connection are stored. -/
theorem contains_of_connected (hg : g.Consistent) {l : Link} (hl : 0 < g.multiplicity l)
    (d : Direction) : g.contains (l.side d).node = true :=
  contains_of_mem_neighbours (hg.mem_neighbours_of_connected hl d)

/-- Unless the input vertex of a connection leads back to its output vertex, a sort in direction `d`
emits the end of the connection that is next to the other one before it. -/
theorem sublist_sort_of_connected (hg : g.Consistent) {l : Link} (hl : 0 < g.multiplicity l)
    (hback : ¬Leads (g.neighbours .outgoing) l.input.node l.output.node) (d : Direction) :
    [(l.side d.opposite).node, (l.side d).node].Sublist (g.sort d).val := by
  refine sublist_sort (hg.contains_of_connected hl _) (hg.mem_neighbours_of_connected hl d) ?_
  intro h
  cases d with
  | incoming => exact hback (hg.leads_comm h)
  | outgoing => exact hback h

end Consistent

/-! ## The order of the ends of a connection -/

/-- No way downstream leads back to where it began. -/
def Acyclic (g : Graph ν) : Prop :=
  ∀ v, ¬Relation.TransGen (fun a b => b ∈ g.downstream a) v v

/-- In a graph without cycles the input vertex of a connection does not lead back. -/
theorem Acyclic.not_leads_back {g : Graph ν} (hacyclic : g.Acyclic) (hg : g.Consistent) {l : Link}
    (hl : 0 < g.multiplicity l) : ¬Leads (g.neighbours .outgoing) l.input.node l.output.node := by
  intro hback
  have hstep : l.input.node ∈ g.downstream l.output.node :=
    hg.mem_neighbours_of_connected hl .outgoing
  exact hacyclic _ (.head' hstep hback)

/-- A graph has no cycles if its connections lead to higher identifiers. -/
theorem acyclic_of_ascending {g : Graph ν} (h : ∀ a ∈ g.ids, ∀ b ∈ g.downstream a, a < b) :
    g.Acyclic := by
  have hlt {u v : NodeId} (hway : Relation.TransGen (fun a b => b ∈ g.downstream a) u v) :
      u < v := by
    have hstep {a b : NodeId} (hb : b ∈ g.downstream a) : a < b :=
      h a (IdMap.mem_keys_iff.mpr (contains_of_mem_neighbours hb)) b hb
    induction hway with
    | single hb => exact hstep hb
    | tail _ hb ih => exact NodeId.lt_trans ih (hstep hb)
  intro v hway
  exact NodeId.lt_irrefl v (hlt hway)

/-- The output vertex of a link comes first from upstream and last from downstream. -/
def EndsInOrder (g : Graph ν) (l : Link) : Prop :=
  [l.output.node, l.input.node].Sublist g.sortFromUpstream.val ∧
    [l.input.node, l.output.node].Sublist g.sortFromDownstream.val

/-- Unless it lies on a cycle, a connection of a consistent graph has its ends in order. -/
theorem Consistent.endsInOrder {g : Graph ν} (hg : g.Consistent) {l : Link}
    (hl : 0 < g.multiplicity l)
    (hback : ¬Leads (g.neighbours .outgoing) l.input.node l.output.node) : g.EndsInOrder l :=
  ⟨hg.sublist_sort_of_connected hl hback .incoming, hg.sublist_sort_of_connected hl hback .outgoing⟩

/-- On every graph a sort emits each vertex once, and after those next to it that do not come after
it by a cycle. So the ends of all connections are in order if there are no cycles; if there are,
those of the connections that lead away from a cycle still are. -/
theorem sort_respects_connections (g : Graph ν) :
    (∀ d, (g.sort d).val.Perm g.ids) ∧
      (∀ d u v, g.contains u = true → u ∈ g.neighbours d v → ¬Leads (g.neighbours d) u v →
        [u, v].Sublist (g.sort d).val) ∧
      (g.Consistent → g.Acyclic → ∀ l, 0 < g.multiplicity l → g.EndsInOrder l) ∧
      (g.Consistent → ∀ l, 0 < g.multiplicity l →
        ¬Leads (g.neighbours .outgoing) l.input.node l.output.node → g.EndsInOrder l) := by
  refine ⟨g.sort_perm, fun d u v => sublist_sort, ?_, ?_⟩
  · intro hg hacyclic l hl
    exact hg.endsInOrder hl (hacyclic.not_leads_back hg hl)
  · intro hg l hl hback
    exact hg.endsInOrder hl hback

/-- Two vertices that are connected both ways, and a third one that the first is connected to. -/
def tailed : Graph (Node .multi Unit) :=
  let a : Slot := ⟨.first, 0⟩
  let b : Slot := ⟨NodeId.first.next, 0⟩
  let c : Slot := ⟨NodeId.first.next.next, 0⟩
  let g := ((Graph.empty .first).insert (Node.new () 1 1)).val.1
  let g := (g.insert (Node.new () 1 1)).val.1
  let g := (g.insert (Node.new () 1 1)).val.1
  let g := (g.connect .outgoing a b).val.1
  let g := (g.connect .outgoing b a).val.1
  (g.connect .outgoing a c).val.1

theorem consistent_tailed : tailed.Consistent := by
  have hempty : (Graph.empty .first : Graph (Node .multi Unit)).Consistent :=
    consistent_of_vertices_eq_empty rfl
  exact (((((hempty.insert _).insert _).insert _).connect _ _ _).connect _ _ _).connect _ _ _

/-- The third vertex comes after the cycle from upstream. When the two others are connected one way
only, there is no cycle. -/
theorem sort_respects_connections_tailed :
    let tail : Link := ⟨⟨.first, 0⟩, ⟨NodeId.first.next.next, 0⟩⟩
    let untied := (tailed.disconnect .outgoing ⟨NodeId.first.next, 0⟩ ⟨.first, 0⟩).val.1
    (tailed.Consistent ∧ ¬tailed.Acyclic ∧ 0 < tailed.multiplicity tail ∧
      ¬Leads (tailed.neighbours .outgoing) tail.input.node tail.output.node ∧
      tailed.EndsInOrder tail) ∧
      untied.Consistent ∧ untied.Acyclic ∧ 0 < untied.multiplicity tail ∧
      untied.EndsInOrder tail := by
  intro tail untied
  have hcycle : ¬tailed.Acyclic := by
    intro hacyclic
    have hout : NodeId.first.next ∈ tailed.downstream .first := by decide
    have hback : NodeId.first ∈ tailed.downstream NodeId.first.next := by decide
    exact hacyclic .first (.tail (.single hout) hback)
  have htail : 0 < tailed.multiplicity tail := by decide
  have hlead : ¬Leads (tailed.neighbours .outgoing) tail.input.node tail.output.node := by
    intro h
    have hclosed : ∀ a ∈ [tail.input.node], ∀ b ∈ tailed.neighbours .outgoing a,
        b ∈ [tail.input.node] := by decide
    have hmem := h.mem_of_closed hclosed (.head _)
    revert hmem
    decide
  have huntied : untied.Consistent :=
    (Removal.disconnect consistent_tailed _ _ _).consistent consistent_tailed
  have hacyclic : untied.Acyclic := acyclic_of_ascending (by decide)
  have htail' : 0 < untied.multiplicity tail := by decide
  exact ⟨⟨consistent_tailed, hcycle, htail, hlead,
      (sort_respects_connections tailed).2.2.2 consistent_tailed tail htail hlead⟩,
    huntied, hacyclic, htail',
    (sort_respects_connections untied).2.2.1 huntied hacyclic tail htail'⟩

end Graph

end PortGraph
