import PortGraph.Proofs.Ports

/-!
# Lists of links

A list of links determines, for every port, the list of the far ends of the links at that port:
`farEnds d s ls`. This is how the links that a vertex records are read back as the lists of
opposites of its ports (`farEnds_links`), and how a list of all connections of a graph would account
for the lists of opposites of all its ports.
-/

namespace PortGraph

namespace Link

/-- The far ends of those of the links that end at the port of direction `d` at `s`, in order. -/
def farEnds (d : Direction) (s : Slot) (ls : List Link) : List Slot :=
  (ls.filter fun l => l.side d = s).map (side d.opposite)

@[simp] theorem farEnds_nil (d : Direction) (s : Slot) : farEnds d s [] = [] := rfl

theorem farEnds_cons (d : Direction) (s : Slot) (l : Link) (ls : List Link) :
    farEnds d s (l :: ls) =
      if l.side d = s then l.side d.opposite :: farEnds d s ls else farEnds d s ls := by
  by_cases h : l.side d = s <;> simp [farEnds, h]

theorem farEnds_append (d : Direction) (s : Slot) (ls ms : List Link) :
    farEnds d s (ls ++ ms) = farEnds d s ls ++ farEnds d s ms := by
  rw [farEnds, List.filter_append, List.map_append]
  rfl

/-- A link is counted by its far end at either of its ports. -/
theorem count_farEnds (d : Direction) (s t : Slot) (ls : List Link) :
    (farEnds d s ls).count t = ls.count (between d s t) := by
  induction ls with
  | nil => rfl
  | cons l ls ih =>
    rw [farEnds_cons, List.count_cons, ← ih]
    by_cases hs : l.side d = s
    · rw [if_pos hs, List.count_cons]
      by_cases ht : l.side d.opposite = t
      · simp [ht, eq_between_iff, hs]
      · simp [ht, eq_between_iff]
    · simp [hs, eq_between_iff]

/-- A slot is a far end exactly if the link to it is in the list. -/
theorem mem_farEnds {d : Direction} {s t : Slot} {ls : List Link} :
    t ∈ farEnds d s ls ↔ between d s t ∈ ls := by
  rw [← List.count_pos_iff, ← List.count_pos_iff, count_farEnds]

/-- Filtering links filters far ends. -/
theorem farEnds_filter (d : Direction) (s : Slot) (p : Link → Bool) (ls : List Link) :
    farEnds d s (ls.filter p) = (farEnds d s ls).filter fun t => p (between d s t) := by
  induction ls with
  | nil => rfl
  | cons l ls ih =>
    rw [farEnds_cons]
    by_cases hs : l.side d = s
    · have hl : between d s (l.side d.opposite) = l := by rw [← hs, between_side]
      by_cases hp : p l = true
      · simp [hp, hs, farEnds_cons, hl, ih]
      · simp [hp, hs, hl, ih]
    · by_cases hp : p l = true <;> simp [hp, hs, farEnds_cons, ih]

/-- Dropping the earliest occurrence of a link drops the earliest entry at its two ports. -/
theorem farEnds_erase (d : Direction) (s : Slot) (l : Link) (ls : List Link) :
    farEnds d s (ls.erase l) =
      if s = l.side d then (farEnds d s ls).erase (l.side d.opposite) else farEnds d s ls := by
  induction ls with
  | nil => simp
  | cons m ls ih =>
    rw [List.erase_cons]
    by_cases hml : m = l
    · subst hml
      rw [if_pos (beq_self_eq_true m), farEnds_cons]
      by_cases hs : s = m.side d
      · simp [hs]
      · simp [hs, Ne.symm hs]
    · rw [if_neg (by simpa using hml), farEnds_cons, farEnds_cons, ih]
      by_cases hms : m.side d = s
      · rw [if_pos hms, if_pos hms]
        by_cases hs : s = l.side d
        · have hne : m.side d.opposite ≠ l.side d.opposite := fun h =>
            hml (ext_side d (hms.trans hs) h)
          rw [if_pos hs, if_pos hs, List.erase_cons, if_neg (by simpa using hne)]
        · rw [if_neg hs, if_neg hs]
      · rw [if_neg hms, if_neg hms]

/-- The links from one port to a list of far ends. -/
theorem farEnds_map_between (d : Direction) (s own : Slot) (fars : List Slot) :
    farEnds d s (fars.map (between d own)) = if own = s then fars else [] := by
  induction fars with
  | nil => simp
  | cons t fars ih =>
    rw [List.map_cons, farEnds_cons, ih]
    by_cases h : own = s <;> simp [h]

end Link

/-! ## The links of a vertex -/

namespace Vertex

variable {φ : Flavour} {ν : Type} [Vertex φ ν]

/-- The opposites listed at a position of a vertex; none where there is no port. -/
def peers (d : Direction) (i : Nat) (v : ν) : List Slot :=
  match port? d i v with
  | some p => p.opposites
  | none => []

/-- What is listed depends on the ports alone. -/
theorem peers_of_ports_eq {d : Direction} {v w : ν} (h : ports d v = ports d w) (i : Nat) :
    peers d i v = peers d i w := by
  unfold peers port?
  rw [h]

/-- Opposites are only listed at positions of ports. -/
theorem exists_port?_of_mem_peers {d : Direction} {i : Nat} {v : ν} {t : Slot}
    (ht : t ∈ peers d i v) : ∃ p, port? d i v = some p := by
  unfold peers at ht
  cases hp : port? d i v with
  | none => rw [hp] at ht; cases ht
  | some p => exact ⟨p, rfl⟩

/-- A vertex without connections lists nothing. -/
theorem unconnected_iff {v : ν} : Unconnected v ↔ ∀ d i, peers d i v = [] := by
  constructor
  · intro h d i
    unfold peers
    cases hp : port? d i v with
    | none => rfl
    | some p => exact h d p (List.mem_of_getElem? hp)
  · intro h d p hp
    obtain ⟨i, hi⟩ := List.mem_iff_getElem?.mp hp
    have hpeers := h d i
    rwa [peers, port?, hi] at hpeers

/-- A single port has at most one opposite. -/
theorem length_peers_le (d : Direction) (i : Nat) (v : ν) (hφ : φ = .single) :
    (peers d i v).length ≤ 1 := by
  unfold peers
  cases port? d i v with
  | none => exact Nat.zero_le 1
  | some p => exact p.length_le hφ

/-- What a vertex lists after all of its ports were changed. -/
theorem peers_mapPorts [LawfulPorts φ ν] {f : Port φ → Port φ} {g : List Slot → List Slot}
    (hf : ∀ p, (f p).opposites = g p.opposites) (hnil : g [] = []) (d : Direction) (i : Nat)
    (v : ν) : peers d i (mapPorts f v) = g (peers d i v) := by
  unfold peers
  rw [port?_mapPorts]
  cases port? d i v with
  | none => exact hnil.symm
  | some p => exact hf p

/-- A cleared vertex lists nothing. -/
theorem peers_clearLinks [LawfulPorts φ ν] (d : Direction) (i : Nat) (v : ν) :
    peers d i (clearLinks v) = [] :=
  peers_mapPorts (g := fun _ => []) Port.opposites_clear rfl d i v

theorem unconnected_clearLinks [LawfulPorts φ ν] (v : ν) : Unconnected (clearLinks v) :=
  unconnected_iff.mpr fun d i => peers_clearLinks d i v

/-- The links from the ports of a row, the first of them at position `k`, seen at one port. -/
theorem farEnds_flatMap_zipIdx (d : Direction) (id : NodeId) (s : Slot) (ps : List (Port φ))
    (k : Nat) :
    Link.farEnds d s
        ((ps.zipIdx k).flatMap fun c => c.1.opposites.map (Link.between d ⟨id, c.2⟩)) =
      if s.node = id ∧ k ≤ s.offset then
        match ps[s.offset - k]? with
        | some p => p.opposites
        | none => []
      else [] := by
  induction ps generalizing k with
  | nil => simp
  | cons p ps ih =>
    rw [List.zipIdx_cons, List.flatMap_cons, Link.farEnds_append, Link.farEnds_map_between, ih]
    obtain ⟨node, i⟩ := s
    by_cases hn : node = id
    · subst hn
      rcases Nat.lt_trichotomy k i with hk | hk | hk
      · have hsub : i - k = i - (k + 1) + 1 := by omega
        have hle : k + 1 ≤ i := hk
        simp [Nat.ne_of_lt hk, Nat.le_of_lt hk, hle, hsub]
      · subst hk
        have hle : ¬k + 1 ≤ k := Nat.not_succ_le_self k
        simp [hle]
      · have hle : ¬k + 1 ≤ i := by omega
        simp [Nat.ne_of_gt hk, Nat.not_le_of_gt hk, hle]
    · simp [hn, Ne.symm hn]

/-- The links recorded by a vertex are the opposites that its ports list. -/
theorem farEnds_links (d : Direction) (id : NodeId) (v : ν) (s : Slot) :
    Link.farEnds d s (links d id v) = if s.node = id then peers d s.offset v else [] := by
  have hlinks : links d id v =
      (ports d v).zipIdx.flatMap fun c => c.1.opposites.map (Link.between d ⟨id, c.2⟩) := by
    rw [links, contacts, List.map_flatMap]
    simp only [List.map_map]
    rfl
  rw [hlinks, farEnds_flatMap_zipIdx]
  simp [peers, port?]

/-- How often a vertex records a link. -/
theorem count_links (d : Direction) (id : NodeId) (v : ν) (l : Link) :
    (links d id v).count l =
      if (l.side d).node = id then (peers d (l.side d).offset v).count (l.side d.opposite)
      else 0 := by
  rw [← Link.between_side d l, ← Link.count_farEnds, farEnds_links]
  simp only [Link.side_between, Link.side_opposite_between]
  split
  · rfl
  · exact List.count_nil

end Vertex

/-! ## The links of a graph -/

namespace Graph

variable {φ : Flavour} {ν : Type} [Vertex φ ν]

/-- The opposites listed in a graph are those listed by its vertices. -/
theorem peers_eq_of_find? {g : Graph ν} {d : Direction} {s : Slot} {v : ν}
    (hv : g.find? s.node = some v) : g.peers d s = Vertex.peers d s.offset v := by
  rw [peers, port?, hv]
  rfl

/-- An absent vertex lists nothing. -/
theorem peers_eq_nil_of_find? {g : Graph ν} {d : Direction} {s : Slot}
    (hv : g.find? s.node = none) : g.peers d s = [] := by
  rw [peers, port?, hv, Option.bind_none]

/-- A stored vertex records a link as often as the graph lists it at the port of the vertex. -/
theorem count_links {g : Graph ν} {id : NodeId} {v : ν} (hv : g.find? id = some v) (d : Direction)
    (l : Link) :
    (Vertex.links d id v).count l =
      if (l.side d).node = id then (g.peers d (l.side d)).count (l.side d.opposite) else 0 := by
  rw [Vertex.count_links]
  by_cases h : (l.side d).node = id
  · rw [if_pos h, if_pos h, peers_eq_of_find? (h ▸ hv)]
  · rw [if_neg h, if_neg h]

end Graph

end PortGraph
