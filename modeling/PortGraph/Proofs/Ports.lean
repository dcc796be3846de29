import PortGraph.Graph.Connection
import PortGraph.Vertex.Lawful

/-!
# The ports of a graph

Everything that a graph records about connections can be read off two observations: which ports
there are (`HasPort`) and which opposites each of them lists (`peers`). This file says what changing
a vertex or a single port does to them. What stays the same when only connections change is the
relation `Rewired`: the identity and the counter of the graph, its vertices, and all of each vertex
but the opposites of its ports.
-/

namespace PortGraph

/-! ## Related options -/

section

variable {α β : Type} {R : α → β → Prop} {x : Option α} {y : Option β}

/-- What something is related to is something. -/
theorem exists_of_rel_some {a : α} (h : Option.Rel R (some a) y) : ∃ b, y = some b ∧ R a b := by
  cases h with
  | some h => exact ⟨_, rfl, h⟩

/-- Nothing is related to nothing else. -/
theorem eq_none_of_rel_none (h : Option.Rel R none y) : y = none := by
  cases h with
  | none => rfl

/-- Related options hold something or not alike. -/
theorem isSome_eq_of_rel (h : Option.Rel R x y) : y.isSome = x.isSome := by
  cases h with
  | none => rfl
  | some h => rfl

/-- A reflexive relation relates every option to itself. -/
theorem rel_refl {S : α → α → Prop} (hS : ∀ a, S a a) (x : Option α) : Option.Rel S x x := by
  cases x with
  | none => exact .none
  | some a => exact .some (hS a)

end

/-! ## Directions and links -/

namespace Direction

/-- A direction differs from the one it connects to. -/
theorem opposite_ne (d : Direction) : d.opposite ≠ d := by
  cases d <;> decide

/-- There are only two directions. -/
theorem eq_opposite_of_ne {d e : Direction} (h : e ≠ d) : e = d.opposite := by
  cases d <;> cases e <;> first | rfl | exact absurd rfl h

/-- What holds of a direction and of its opposite holds of every direction. -/
theorem forall_of_opposite {p : Direction → Prop} (d : Direction) (h : p d) (h' : p d.opposite)
    (e : Direction) : p e := by
  by_cases he : e = d
  · exact he ▸ h
  · exact eq_opposite_of_ne he ▸ h'

end Direction

namespace Link

/-- The end of a link at a port of direction `d`. -/
def side : Direction → Link → Slot
  | .incoming, l => l.input
  | .outgoing, l => l.output

/-- A link is known by its two ends. -/
theorem ext_side {l m : Link} (d : Direction) (h : l.side d = m.side d)
    (h' : l.side d.opposite = m.side d.opposite) : l = m := by
  obtain ⟨o, i⟩ := l
  obtain ⟨o', i'⟩ := m
  cases d <;> simp_all [side, Direction.opposite]

@[simp] theorem side_between (d : Direction) (s t : Slot) : (between d s t).side d = s := by
  cases d <;> rfl

@[simp] theorem side_opposite_between (d : Direction) (s t : Slot) :
    (between d s t).side d.opposite = t := by
  cases d <;> rfl

/-- Naming the other end first gives the same link. -/
@[simp] theorem between_opposite (d : Direction) (s t : Slot) :
    between d.opposite t s = between d s t := by
  cases d <;> rfl

@[simp] theorem between_side (d : Direction) (l : Link) :
    between d (l.side d) (l.side d.opposite) = l := by
  cases d <;> rfl

/-- A link joins two slots exactly when these are its ends. -/
theorem eq_between_iff {l : Link} {d : Direction} {s t : Slot} :
    l = between d s t ↔ l.side d = s ∧ l.side d.opposite = t := by
  constructor
  · rintro rfl
    exact ⟨side_between d s t, side_opposite_between d s t⟩
  · rintro ⟨rfl, rfl⟩
    exact (between_side d l).symm

/-- The vertex `id` has a port at one of the ends. -/
def touches (id : NodeId) (l : Link) : Bool :=
  l.output.node = id || l.input.node = id

/-- A link touches a vertex at one end or at the other, whichever is named first. -/
theorem touches_iff {id : NodeId} {l : Link} (d : Direction) :
    l.touches id = true ↔ (l.side d).node = id ∨ (l.side d.opposite).node = id := by
  cases d <;> simp [touches, side, Direction.opposite, or_comm]

end Link

/-! ## Ports of a vertex -/

namespace Vertex

variable {φ : Flavour} {ν : Type} [Vertex φ ν] [LawfulPorts φ ν]

/-- Overwriting the ports of one direction leaves those of the other alone. -/
theorem ports_setPorts {d e : Direction} {ps : List (Port φ)} {v : ν}
    (h : ps.length = (ports d v).length) :
    ports e (setPorts d ps v) = if e = d then ps else ports e v := by
  by_cases he : e = d
  · subst he
    rw [if_pos rfl]
    exact LawfulPorts.ports_setPorts e ps v h
  · rw [if_neg he, Direction.eq_opposite_of_ne he]
    exact LawfulPorts.ports_opposite_setPorts d ps v

/-- Changing one port is changing one entry of one list of ports. -/
theorem ports_adjustPort (d e : Direction) (i : Nat) (f : Port φ → Port φ) (v : ν) :
    ports e (adjustPort d i f v) = if e = d then (ports d v).modify i f else ports e v :=
  ports_setPorts (List.length_modify f (ports d v) i)

/-- Changing all ports changes each of them. -/
theorem ports_mapPorts (f : Port φ → Port φ) (v : ν) (d : Direction) :
    ports d (mapPorts f v) = (ports d v).map f := by
  rw [mapPorts]
  have hin (e : Direction) : ports e (setPorts .incoming ((ports .incoming v).map f) v) =
      if e = .incoming then (ports .incoming v).map f else ports e v :=
    ports_setPorts (List.length_map f)
  rw [ports_setPorts (List.length_map f)]
  cases d with
  | incoming => simp [hin]
  | outgoing => simp [hin]

/-- The port at a position after one port was changed. -/
theorem port?_adjustPort (d e : Direction) (i j : Nat) (f : Port φ → Port φ) (v : ν) :
    port? e j (adjustPort d i f v) =
      if e = d ∧ j = i then (port? d i v).map f else port? e j v := by
  rw [port?, ports_adjustPort]
  by_cases he : e = d
  · subst he
    rw [if_pos rfl, List.getElem?_modify]
    by_cases hj : j = i
    · subst hj
      simp [port?]
    · have hij : i ≠ j := Ne.symm hj
      simp [hj, hij, port?]
  · rw [if_neg he, if_neg (fun h => he h.1), port?]

/-- The port at a position after all ports were changed. -/
theorem port?_mapPorts (d : Direction) (i : Nat) (f : Port φ → Port φ) (v : ν) :
    port? d i (mapPorts f v) = (port? d i v).map f := by
  rw [port?, ports_mapPorts, List.getElem?_map, port?]

/-! ### Rewiring -/

/-- `w` is `v` with other connections: nothing differs but the opposites of ports. What is observed
of a vertex without looking at its ports is the same, in particular its membership. -/
structure Rewired (v w : ν) : Prop where
  offsets (d : Direction) : (ports d w).map Port.offset = (ports d v).map Port.offset
  observe {α : Type} (f : ν → α) (hf : ∀ d ps u, f (setPorts d ps u) = f u) : f w = f v

namespace Rewired

omit [LawfulPorts φ ν] in
theorem refl (v : ν) : Rewired v v := ⟨fun _ => rfl, fun _ _ => rfl⟩

omit [LawfulPorts φ ν] in
theorem trans {u v w : ν} (h : Rewired u v) (h' : Rewired v w) : Rewired u w where
  offsets d := (h'.offsets d).trans (h.offsets d)
  observe f hf := (h'.observe f hf).trans (h.observe f hf)

omit [LawfulPorts φ ν] in
/-- A place that may hold a vertex is rewired in two steps. -/
theorem option_trans {u v w : Option ν} (h : Option.Rel Rewired u v) (h' : Option.Rel Rewired v w) :
    Option.Rel Rewired u w := by
  cases h with
  | none => exact h'
  | some h => cases h' with | some h' => exact .some (h.trans h')

/-- Rewiring does not change the membership. -/
theorem membership_eq {v w : ν} (h : Rewired v w) : membership w = membership v :=
  h.observe membership LawfulPorts.membership_setPorts

omit [LawfulPorts φ ν] in
/-- A rewired vertex has a port wherever it had one, with the same offset. -/
theorem map_offset_port? {v w : ν} (h : Rewired v w) (d : Direction) (i : Nat) :
    (port? d i w).map Port.offset = (port? d i v).map Port.offset := by
  rw [port?, port?, ← List.getElem?_map, ← List.getElem?_map, h.offsets d]

end Rewired

/-- Changing the opposites of one port is a rewiring. -/
theorem rewired_adjustPort (d : Direction) (i : Nat) {f : Port φ → Port φ}
    (hf : ∀ p, (f p).offset = p.offset) (v : ν) : Rewired v (adjustPort d i f v) where
  offsets e := by
    rw [ports_adjustPort]
    by_cases he : e = d
    · subst he
      rw [if_pos rfl]
      apply List.ext_getElem?
      intro j
      rw [List.getElem?_map, List.getElem?_modify, List.getElem?_map]
      cases (ports e v)[j]? with
      | none => rfl
      | some p => by_cases hj : i = j <;> simp [hj, hf]
    · rw [if_neg he]
  observe g hg := hg d _ v

/-- Changing the opposites of all ports is a rewiring. -/
theorem rewired_mapPorts {f : Port φ → Port φ} (hf : ∀ p, (f p).offset = p.offset) (v : ν) :
    Rewired v (mapPorts f v) where
  offsets d := by
    rw [ports_mapPorts, List.map_map]
    exact congrArg (List.map · _) (funext hf)
  observe g hg := by rw [mapPorts, hg, hg]

end Vertex

/-! ## Ports of a graph -/

/-- Maps that have values for the same keys have the same keys. -/
theorem IdMap.keys_congr {α : Type} {m n : IdMap α} (h : ∀ k, m.contains k = n.contains k) :
    m.keys = n.keys := by
  have hkeys (m : IdMap α) : (m.mapValues fun _ _ => ()).keys = m.keys := by
    unfold keys mapValues
    rw [List.map_map]
    rfl
  have hunit : (m.mapValues fun _ _ => ()) = n.mapValues fun _ _ => () := by
    apply IdMap.ext
    intro k
    have hk := h k
    unfold contains at hk
    rw [get?_mapValues, get?_mapValues]
    cases hm : m.get? k with
    | none =>
      cases hn : n.get? k with
      | none => rfl
      | some b => rw [hm, hn] at hk; cases hk
    | some a =>
      cases hn : n.get? k with
      | none => rw [hm, hn] at hk; cases hk
      | some b => rfl
  rw [← hkeys m, ← hkeys n, hunit]

namespace Graph

variable {φ : Flavour} {ν : Type} [Vertex φ ν]

/-- The port at an address, if there is one. -/
def port? (g : Graph ν) (d : Direction) (s : Slot) : Option (Port φ) :=
  (g.find? s.node).bind (Vertex.port? d s.offset)

/-- There is a port at an address. -/
def HasPort (g : Graph ν) (d : Direction) (s : Slot) : Prop := ∃ p, g.port? d s = some p

/-- The opposites listed at an address; none where there is no port. -/
def peers (g : Graph ν) (d : Direction) (s : Slot) : List Slot :=
  match g.port? d s with
  | some p => p.opposites
  | none => []

/-- Looking up a port succeeds exactly where there is one. -/
theorem port_eq_ok_iff {g : Graph ν} {d : Direction} {s : Slot} {p : Port φ} :
    g.port d s = .ok p ↔ g.port? d s = some p := by
  rw [port, port?]
  cases g.find? s.node with
  | none => simp
  | some v => cases hp : Vertex.port? d s.offset v <;> simp [hp]

/-- A port that is found lists the opposites of its address. -/
theorem peers_eq_of_port? {g : Graph ν} {d : Direction} {s : Slot} {p : Port φ}
    (h : g.port? d s = some p) : g.peers d s = p.opposites := by
  rw [peers, h]

/-- Where there is no port no opposites are listed. -/
theorem peers_eq_nil_of_port? {g : Graph ν} {d : Direction} {s : Slot}
    (h : g.port? d s = none) : g.peers d s = [] := by
  rw [peers, h]

/-- Opposites are only listed where there is a port. -/
theorem hasPort_of_mem_peers {g : Graph ν} {d : Direction} {s t : Slot} (h : t ∈ g.peers d s) :
    g.HasPort d s := by
  cases hp : g.port? d s with
  | some p => exact ⟨p, hp⟩
  | none => rw [peers_eq_nil_of_port? hp] at h; cases h

/-- The vertex of a port is stored. -/
theorem HasPort.exists_find? {g : Graph ν} {d : Direction} {s : Slot} (h : g.HasPort d s) :
    ∃ v, g.find? s.node = some v := by
  obtain ⟨p, hp⟩ := h
  rw [port?, Option.bind_eq_some_iff] at hp
  obtain ⟨v, hv, _⟩ := hp
  exact ⟨v, hv⟩

/-- Two graphs with the same vertex at a slot have the same port there. -/
theorem port?_congr {g h : Graph ν} {d : Direction} {s : Slot}
    (hf : h.find? s.node = g.find? s.node) : h.port? d s = g.port? d s := by
  rw [port?, port?, hf]

/-- Two graphs with the same port at an address list the same opposites there. -/
theorem peers_congr {g h : Graph ν} {d : Direction} {s : Slot}
    (hp : h.port? d s = g.port? d s) : h.peers d s = g.peers d s := by
  rw [peers, peers, hp]

/-- A single port has at most one opposite. -/
theorem length_peers_le (g : Graph ν) (d : Direction) (s : Slot) (hφ : φ = .single) :
    (g.peers d s).length ≤ 1 := by
  cases hp : g.port? d s with
  | some p => rw [peers_eq_of_port? hp]; exact p.length_le hφ
  | none => rw [peers_eq_nil_of_port? hp]; exact Nat.zero_le 1

/-! ### Changing vertices and ports -/

omit [Vertex φ ν] in
/-- An identifier is in use exactly if it has a vertex. -/
theorem contains_iff {g : Graph ν} {k : NodeId} : g.contains k = true ↔ ∃ v, g.find? k = some v :=
  Option.isSome_iff_exists

omit [Vertex φ ν] in
/-- An identifier is not in use exactly if it has no vertex. -/
theorem not_contains_iff {g : Graph ν} {k : NodeId} :
    ¬g.contains k = true ↔ g.find? k = none :=
  Option.not_isSome_iff_eq_none

/-- The vertices after one of them was changed. -/
theorem find?_adjust (g : Graph ν) (id k : NodeId) (f : ν → ν) :
    (g.adjust id f).find? k = if k = id then (g.find? k).map f else g.find? k :=
  IdMap.get?_adjust g.vertices id k f

/-- Changing a vertex brings none into use. -/
theorem contains_adjust (g : Graph ν) (id k : NodeId) (f : ν → ν) :
    (g.adjust id f).contains k = g.contains k := by
  change ((g.adjust id f).find? k).isSome = (g.find? k).isSome
  rw [find?_adjust]
  split
  · exact Option.isSome_map
  · rfl

/-- Changing a port of another vertex does not touch a vertex. -/
theorem find?_adjustPort_of_ne {g : Graph ν} {d : Direction} {s : Slot} {f : Port φ → Port φ}
    {k : NodeId} (hk : k ≠ s.node) : (g.adjustPort d s f).find? k = g.find? k := by
  rw [adjustPort, find?_adjust, if_neg hk]

variable [LawfulPorts φ ν]

/-- The ports after one of them was changed. -/
theorem port?_adjustPort (g : Graph ν) (d e : Direction) (s t : Slot) (f : Port φ → Port φ) :
    (g.adjustPort d s f).port? e t =
      if e = d ∧ t = s then (g.port? d s).map f else g.port? e t := by
  obtain ⟨k, i⟩ := s
  obtain ⟨k', j⟩ := t
  rw [port?, adjustPort, find?_adjust, port?, port?]
  by_cases hk : k' = k
  · subst hk
    rw [if_pos rfl]
    cases g.find? k' with
    | none => simp
    | some v => simp [Vertex.port?_adjustPort]
  · rw [if_neg hk, if_neg (fun h => hk (congrArg Slot.node h.2))]

end Graph

end PortGraph
