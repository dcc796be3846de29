import PortGraph.Operator
import PortGraph.Proofs.Pools

/-!
# Owners

Vertices record who owns them: the graph that they are stored in and their identifier there. The
record is kept by the vertex, where a function that revises it can overwrite it, and a vertex that
was carried off through such a function still names its former owner when it is inserted elsewhere.
All the same, in every graph that a session comes to each vertex names its owner, no other vertex of
any graph names the same, and a vertex that is handed out names none
(`Session.memberships_right`).

This is so for all vertices that record what they are told. Of those that also keep the laws about
ports, a vertex that is handed out by a consistent graph is unconnected.
-/

namespace PortGraph

variable {φ : Flavour} {ν : Type}

/-! ## Vertices that are handed out -/

/-- The results of journaled steps are those of the steps without their journals. -/
theorem Journaled.val_mapM {α β : Type} (f : α → Journaled β) (as : List α) :
    (as.mapM f).val = as.map fun a => (f a).val := by
  induction as with
  | nil => rfl
  | cons a rest ih =>
    rw [List.mapM_cons]
    simp only [Journaled.val_bind, ih]
    rfl

variable [Vertex φ ν]

namespace Graph

/-- A stored vertex is severed from all others, told that it leaves, and handed out. -/
theorem exists_val_release {g : Graph ν} {id : NodeId} (hid : g.contains id = true) :
    ∃ w, (g.severWhere id fun _ => false).val.find? id = some w ∧
      (g.release id).val = ((g.severWhere id fun _ => false).val.without [id],
        some (Vertex.onLeave w).val) := by
  have hdrop (f : Graph ν) :
      ({ f with vertices := f.vertices.erase id } : Graph ν) = f.without [id] :=
    ext_find? rfl rfl fun k => by simp [find?_drop, find?_without]
  obtain ⟨w, hw⟩ := contains_iff.mp ((g.refitted_severWhere id fun _ => false).stored hid)
  refine ⟨w, hw, ?_⟩
  rw [release, if_pos hid, ← hdrop]
  simp only [Journaled.val_bind, unbind, hw]
  rfl

/-- What is handed out was stored. -/
theorem release_eq_some {g : Graph ν} {id : NodeId} {v : ν} (h : (g.release id).val.2 = some v) :
    ∃ w, (g.severWhere id fun _ => false).val.find? id = some w ∧ v = (Vertex.onLeave w).val := by
  by_cases hid : g.contains id = true
  · obtain ⟨w, hw, hval⟩ := exists_val_release hid
    rw [hval] at h
    exact ⟨w, hw, (Option.some.inj h).symm⟩
  · rw [release, if_neg hid] at h
    cases h

/-- A graph is taken apart into its vertices, each of them cleared and told that it leaves. -/
theorem mem_intoOrphans {g : Graph ν} {v : ν} :
    v ∈ g.intoOrphans.val.map Prod.snd ↔
      ∃ k w, g.find? k = some w ∧ v = (Vertex.onLeave (Vertex.clearLinks w)).val := by
  rw [intoOrphans, Journaled.val_mapM, List.map_map, List.mem_map]
  constructor
  · rintro ⟨⟨k, w⟩, hmem, rfl⟩
    exact ⟨k, w, IdMap.get?_eq_some_iff.mpr hmem, rfl⟩
  · rintro ⟨k, w, hw, rfl⟩
    exact ⟨(k, w), IdMap.get?_eq_some_iff.mp hw, rfl⟩

/-- A vertex of a consistent graph that was severed from all others has no connections. -/
theorem unconnected_severWhere [LawfulPorts φ ν] {g : Graph ν} (hg : g.Consistent) {id : NodeId}
    {w : ν} (hw : (g.severWhere id fun _ => false).val.find? id = some w) :
    Vertex.Unconnected w := by
  refine Vertex.unconnected_iff.mpr fun d i => ?_
  rw [← peers_eq_of_find? (s := ⟨id, i⟩) hw]
  exact peers_severWhere_own hg d rfl

end Graph

namespace Call

variable {c : Call φ ν} {v : ν}

/-- A vertex that is handed out names no owner. -/
theorem membership_of_mem_orphans [RecordingVertex φ ν] (hv : v ∈ c.orphans) :
    Vertex.membership v = none := by
  cases c with
  | release g id =>
    obtain ⟨w, _, rfl⟩ := Graph.release_eq_some (Option.mem_toList.mp hv)
    exact RecordingVertex.membership_onLeave w
  | dissolve g =>
    obtain ⟨_, w, _, rfl⟩ := Graph.mem_intoOrphans.mp hv
    exact RecordingVertex.membership_onLeave _
  | _ => exact absurd hv List.not_mem_nil

/-- A vertex that is handed out by a consistent graph has no connections. -/
theorem unconnected_of_mem_orphans [LawfulPorts φ ν] [SheddingVertex φ ν]
    (hc : ∀ g ∈ c.takes, g.Consistent) (hv : v ∈ c.orphans) : Vertex.Unconnected v := by
  cases c with
  | release g id =>
    obtain ⟨w, hw, rfl⟩ := Graph.release_eq_some (Option.mem_toList.mp hv)
    exact (SheddingVertex.sheds_onLeave w).unconnected
      (Graph.unconnected_severWhere (hc g (.head _)) hw)
  | dissolve g =>
    obtain ⟨_, w, _, rfl⟩ := Graph.mem_intoOrphans.mp hv
    exact (SheddingVertex.sheds_onLeave _).unconnected (Vertex.unconnected_clearLinks w)
  | _ => exact absurd hv List.not_mem_nil

end Call

/-! ## Sessions -/

/-- After the calls `cs` the vertices of the pool `q` are owned by the graphs that store them. -/
structure Owned (cs : List (Call φ ν)) (q : Pool ν) : Prop where
  /-- A vertex names the graph and the identifier under which it is stored. -/
  placed {g : Graph ν} (hg : g ∈ q.graphs) {k : NodeId} {v : ν} (hv : g.find? k = some v) :
    Vertex.membership v = some ⟨g.id, k⟩
  /-- No other vertex does. -/
  unique {g h : Graph ν} (hg : g ∈ q.graphs) (hh : h ∈ q.graphs) {k j : NodeId} {v w : ν}
    (hv : g.find? k = some v) (hw : h.find? j = some w)
    (hvw : Vertex.membership v = Vertex.membership w) : g = h ∧ k = j
  /-- So it was in each graph that a call took. -/
  taken {c : Call φ ν} (hc : c ∈ cs) {g : Graph ν} (hg : g ∈ c.takes) {k : NodeId} {v : ν}
    (hv : g.find? k = some v) : Vertex.membership v = some ⟨g.id, k⟩
  /-- A vertex that was handed out is an orphan, -/
  orphaned {c : Call φ ν} (hc : c ∈ cs) {v : ν} (hv : v ∈ c.orphans) : Vertex.membership v = none
  /-- and unconnected if its graph was consistent. -/
  unconnected (hν : LawfulVertex φ ν) {c : Call φ ν} (hc : c ∈ cs)
    (hconsistent : ∀ g ∈ c.takes, g.Consistent) {v : ν} (hv : v ∈ c.orphans) :
    Vertex.Unconnected v

/-- Whatever a session does with vertices that record what they are told, every vertex names its
owner and no other vertex names the same, and what is handed out is an orphan. -/
theorem Session.memberships_right [RecordingVertex φ ν] {p q : Pool ν} {cs : List (Call φ ν)}
    (hp : p.Regular) (hplaced : ∀ g ∈ p.graphs, g.Placed) (h : Session p cs q) : Owned cs q := by
  have hrooted : p.All Graph.Rooted := fun g hg => ⟨hp.bounded hg, hplaced g hg, hp.issued hg⟩
  obtain ⟨hcs, hq⟩ := h.all Graph.invariant_rooted hrooted
  refine ⟨fun hg _ _ hv => (hq _ hg).placed hv, ?unique, ?taken,
    fun _ _ hv => Call.membership_of_mem_orphans hv,
    fun _ _ _ hconsistent _ hv => Call.unconnected_of_mem_orphans hconsistent hv⟩
  case unique =>
    intro f g hf hg k j v w hv hw hvw
    rw [(hq f hf).placed hv, (hq g hg).placed hw] at hvw
    obtain ⟨hid, hk⟩ := Membership.mk.inj (Option.some.inj hvw)
    exact ⟨(h.regular hp).1.eq_of_id hf hg hid, hk⟩
  case taken =>
    intro c hc g hg k v hv
    obtain ⟨n, htaken⟩ := hcs c hc
    exact (htaken g hg).placed hv

/-- An operator that adds ports when it joins and drops some when it leaves. -/
def hermit : Operator .multi where
  name := ""
  kind := .other
  joining := .grow
  leaving := .shrink
  inputs := Port.row 1
  outputs := []

/-- The operator by itself in a graph. -/
def hermitage (id : GraphId) : Graph (Operator .multi) := ((Graph.empty id).insert hermit).val.1

/-- The operator as it is stored there. -/
def settler (id : GraphId) : Operator .multi := (Vertex.onJoin (some ⟨id, .first⟩) hermit).val

theorem regular_hermitages :
    Pool.Regular ⟨[hermitage .first, hermitage GraphId.first.next], GraphId.first.next.next⟩ := by
  have hbounded (id : GraphId) : (hermitage id).Bounded :=
    Graph.Bounded.insert (g := .empty id) (Graph.bounded_of_vertices_eq_empty rfl) _
  refine ⟨by decide, fun hg => ?_, fun hg => ?_⟩
  all_goals
    rcases List.mem_cons.mp hg with rfl | hg
    on_goal 2 => rw [List.mem_singleton.mp hg]
  · decide
  · decide
  · exact hbounded _
  · exact hbounded _

/-- The operators of two graphs are swapped, by a revision within a revision. What the first of them
was is inserted where it came from, while the other one already names that owner. Then the other one
is released. -/
theorem Session.memberships_right_swap : ∃ p q, ∃ cs : List (Call .multi (Operator .multi)),
    Pool.Regular p ∧ (∀ g ∈ p.graphs, g.Placed) ∧ Session p cs q ∧ Owned cs q ∧
      (q.graphs.map fun g => g.vertices.entries.map fun e => Vertex.membership e.2) =
        [[some ⟨.first, NodeId.first.next⟩], [some ⟨GraphId.first.next, .first⟩]] ∧
      (cs.flatMap Call.orphans).length = 1 := by
  let a := hermitage .first
  let b := hermitage GraphId.first.next
  let a' := (a.modify .first fun _ => pure (settler GraphId.first.next, ())).val.1
  let b' := (b.modify .first fun _ => pure (settler .first, ())).val.1
  let a'' := (a'.insert (settler .first)).val.1
  have hplaced : ∀ g ∈ [a, b], g.Placed := by
    have hone (id : GraphId) : (hermitage id).Placed :=
      (Graph.Continues.insert (.empty id) hermit).placed (Graph.placed_of_vertices_eq_empty rfl)
    simp only [List.forall_mem_cons]
    exact ⟨hone _, hone _, List.forall_mem_nil _⟩
  have hmodify : Pool.Offers ⟨[a, b], GraphId.first.next.next⟩
      (.modify a .first fun _ => settler GraphId.first.next : Call .multi _) [b] :=
    ⟨.refl _, nofun⟩
  have hwithin : Pool.Offers ⟨[b], GraphId.first.next.next⟩
      (.modify b .first fun _ => settler .first : Call .multi _) [] := ⟨.refl _, nofun⟩
  have hinsert : Pool.Offers ⟨[a', b'], GraphId.first.next.next⟩
      (.insert a' (settler .first) : Call .multi _) [b'] := ⟨.refl _, nofun⟩
  have hrelease : Pool.Offers ⟨[a'', b'], GraphId.first.next.next⟩
      (.release a'' .first : Call .multi _) [b'] := ⟨.refl _, nofun⟩
  have hsession :=
    (((nil _).call hmodify ((nil _).step hwithin)).step hinsert).step hrelease
  exact ⟨_, _, _, regular_hermitages, hplaced, hsession,
    memberships_right regular_hermitages hplaced hsession, by decide, by decide⟩

end PortGraph
