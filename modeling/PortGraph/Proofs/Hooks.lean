import PortGraph.Operator
import PortGraph.Proofs.Runs

/-!
# Vertices that replace their ports when they are moved

A vertex may replace ports by new ones when it leaves a graph or joins one. A replaced port is
unconnected, but the ports that it was connected to are not told, and are renamed as if it still
listed them. So after a transfer the destination is consistent exactly if of every connection that
was to be taken along both ends were replaced or neither was (`Conveyed.dest_consistent_iff`). The
source is left consistent in any case, as no vertex is asked before all connections to the vertices
that stay are severed.
-/

namespace PortGraph.Graph

variable {φ : Flavour} {ν : Type} [Vertex φ ν] [LawfulPorts φ ν]

omit [LawfulPorts φ ν] in
/-- Both ends of a connection are stored. -/
theorem Consistent.contains_side {g : Graph ν} (hg : g.Consistent) {l : Link}
    (hl : 0 < g.multiplicity l) (d : Direction) : g.contains (l.side d).node = true := by
  rw [← l.between_side d, ← hg.count_peers, List.count_pos_iff] at hl
  exact contains_iff.mpr (hasPort_of_mem_peers hl).exists_find?

/-- What is left after severing does not cross. -/
theorem not_crosses_of_multiplicity_severed {g : Graph ν} (hg : g.Consistent)
    {subset : List NodeId} {l : Link} (hl : 0 < (g.severed subset).multiplicity l) :
    crosses subset l = false := by
  rw [multiplicity, peers_severed hg, List.count_pos_iff, List.mem_filter] at hl
  exact (Bool.not_eq_true' _).mp hl.2

/-! ## Both ends -/

/-- The connections of the graph are between vertices that have names, or that have none. -/
def Closed (g : Graph ν) (names : Renaming) : Prop :=
  ∀ l, 0 < g.multiplicity l →
    ((∃ a, names.get? l.output.node = some a) ↔ ∃ a, names.get? l.input.node = some a)

variable [SheddingVertex φ ν]

/-- If the connections that are taken along have both ends among the moved vertices, then the other
graph is consistent exactly if both ends of each fare alike. -/
theorem Enrolled.consistent_relink_iff {source dest h : Graph ν} {ids : List NodeId}
    {names : Renaming} (hen : Enrolled dest (source.movers ids) h names)
    (hsource : source.Consistent) (hdest : dest.Sound) (hclosed : source.Closed names) :
    (h.relink names).Consistent ↔ source.Balanced names dest.id := by
  refine ⟨fun hconsistent l hl => ?_, hen.consistent_relink hsource hdest.consistent hdest.bounded⟩
  by_cases hnamed : ∃ a, names.get? l.output.node = some a
  · obtain ⟨a, ha⟩ := hnamed
    obtain ⟨b, hb⟩ := (hclosed l hl).mp ⟨a, ha⟩
    exact ⟨hen.retains_opposite hsource hconsistent hl (d := .outgoing) ha,
      hen.retains_opposite hsource hconsistent hl (d := .incoming) hb⟩
  · -- a vertex without a new name stays as it is
    refine iff_of_true (fun _ a _ ha => ?_) (fun _ b _ hb => ?_)
    · exact absurd ⟨a, ha⟩ hnamed
    · exact absurd ((hclosed l hl).mpr ⟨b, hb⟩) hnamed

/-! ## Transfers -/

/-- The vertices `ids` were moved to `dest`, from a graph that had the connections of `g`. -/
structure Conveyed (g : Graph ν) (ids : List NodeId) (dest : Graph ν) (t : Transfer ν)
    (names : Renaming) : Prop where
  answer : t.answer = .ok names
  domain (k : NodeId) : (∃ a, names.get? k = some a) ↔ k ∈ ids
  source_consistent : t.source.Consistent
  /-- One end that lost its list while the other kept it is enough to spoil the destination. -/
  dest_consistent_iff : t.dest.Consistent ↔ g.Balanced names dest.id

variable {source dest : Graph ν}

/-- Moving all vertices takes all connections along. -/
theorem exists_conveyed_moveInto (hsource : source.Consistent) (hdest : dest.Sound) :
    ∃ names, Conveyed source source.ids dest (source.moveInto dest).val names := by
  obtain ⟨h, names, hval, hen⟩ := source.moveInto_eq hdest.bounded
  have hdomain (k : NodeId) : (∃ a, names.get? k = some a) ↔ source.contains k = true := by
    have hids : k ∈ source.ids ↔ source.contains k = true := IdMap.mem_keys_iff
    rw [hen.exists_name_iff, hids, and_self]
  have hclosed : source.Closed names := fun l hl => by
    rw [hdomain, hdomain]
    exact iff_of_true (hsource.contains_side hl .outgoing) (hsource.contains_side hl .incoming)
  rw [hval]
  refine ⟨names, rfl, fun k => (hdomain k).trans IdMap.mem_keys_iff.symm, ?_,
    hen.consistent_relink_iff hsource hdest hclosed⟩
  exact (Sound.of_vertices_eq_empty rfl).consistent

/-- Releasing vertices takes along what is left after they were severed from the others. -/
theorem exists_conveyed_releaseInto (hsource : source.Consistent) (hdest : dest.Sound)
    {subset : List NodeId} (hsub : ∀ k ∈ subset, source.contains k = true) :
    ∃ names, Conveyed (source.severed subset) subset dest (source.releaseInto subset dest).val
      names := by
  obtain ⟨h, names, hval, hen, hdomain⟩ := releaseInto_eq hsource hdest.bounded hsub
  have hclosed : (source.severed subset).Closed names := fun l hl => by
    have hcross := not_crosses_of_multiplicity_severed hsource hl
    rw [hdomain, hdomain, ← List.contains_iff_mem, ← List.contains_iff_mem]
    exact Bool.eq_iff_iff.mp (by simpa [crosses] using hcross)
  rw [hval]
  exact ⟨names, rfl, hdomain, (excision_severed hsource hsub).consistent hsource,
    hen.consistent_relink_iff (hsource.severed subset) hdest hclosed⟩

/-- Whatever the vertices do to their ports on the way, a transfer leaves the source consistent, and
the destination if both ends of each connection that is taken along fare alike. -/
theorem transfer_conveyed (hsource : source.Consistent) (hdest : dest.Sound) :
    (∃ names, Conveyed source source.ids dest (source.moveInto dest).val names) ∧
      ∀ subset, (∀ k ∈ subset, source.contains k = true) → ∃ names,
        Conveyed (source.severed subset) subset dest (source.releaseInto subset dest).val names :=
  ⟨exists_conveyed_moveInto hsource hdest, fun _ => exists_conveyed_releaseInto hsource hdest⟩

/-- Two connected operators, which do this to their ports when they leave a graph. -/
def couple (first second : Hook) (id : GraphId) : Graph (Operator .single) :=
  let a : Operator .single := ⟨"a", .other, .idle "", first, [], Port.row 1, {}⟩
  let b : Operator .single := ⟨"b", .other, .idle "", second, Port.row 1, [], {}⟩
  let g := ((Graph.empty id).insert a).val.1
  let g := (g.insert b).val.1
  (g.connect .outgoing ⟨.first, 0⟩ ⟨NodeId.first.next, 0⟩).val.1

theorem sound_couple (first second : Hook) (id : GraphId) : (couple first second id).Sound := by
  have hempty : (Graph.empty id : Graph (Operator .single)).Sound := .of_vertices_eq_empty rfl
  exact ((hempty.insert _).insert _).connect _ _ _

/-- If both operators renew their ports then neither lists the other one afterwards. -/
theorem transfer_conveyed_couple :
    let source := couple .renewOutputs .renewInputs .first
    let dest := couple (.idle "") (.idle "") ⟨2⟩
    let t := (source.moveInto dest).val
    source.Consistent ∧ dest.Sound ∧ (∃ names, Conveyed source source.ids dest t names) ∧
      t.dest.peers .outgoing ⟨⟨3, by decide⟩, 0⟩ = [] ∧
      t.dest.peers .incoming ⟨⟨4, by decide⟩, 0⟩ = [] := by
  intro source dest t
  have hsource : source.Sound := sound_couple _ _ _
  have hdest : dest.Sound := sound_couple _ _ _
  have hconveyed := transfer_conveyed hsource.consistent hdest
  exact ⟨hsource.consistent, hdest, hconveyed.1, by decide, by decide⟩

/-- If only the first one does, the second still lists it, whether both are moved or released. -/
theorem not_consistent_transfer_couple :
    let source := couple .renewOutputs (.idle "") .first
    let subset := [NodeId.first, NodeId.first.next]
    let dest : Graph (Operator .single) := .empty ⟨2⟩
    source.Sound ∧ dest.Sound ∧ (∀ k ∈ subset, source.contains k = true) ∧
      ¬(source.moveInto dest).val.dest.Consistent ∧
      ¬(source.releaseInto subset dest).val.dest.Consistent := by
  intro source subset dest
  have hbroken {g : Graph (Operator .single)}
      (hout : g.peers .outgoing ⟨.first, 0⟩ = [])
      (hin : g.peers .incoming ⟨NodeId.first.next, 0⟩ = [⟨.first, 0⟩]) : ¬g.Consistent := by
    intro hconsistent
    have hcount := hconsistent.count_comm .outgoing ⟨.first, 0⟩ ⟨NodeId.first.next, 0⟩
    rw [hout, Direction.opposite, hin] at hcount
    cases hcount
  exact ⟨sound_couple _ _ _, .of_vertices_eq_empty rfl, by decide, hbroken (by decide) (by decide),
    hbroken (by decide) (by decide)⟩

end PortGraph.Graph
