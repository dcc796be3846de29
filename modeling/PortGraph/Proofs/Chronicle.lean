import PortGraph.Proofs.InputOrder
import PortGraph.Proofs.Remnants

/-!
# Opposites are kept in the order of connecting

A chronicle is a graph together with a list of its connections, oldest first. The list is kept
beside the graph: a new connection is added at the end, a removed one is deleted where it occurs
first, and the connections of vertices that go away are deleted. When vertices move to another graph
their connections are appended there under the new names, and a copy begins with the connections of
the source in the order of its inputs.

However graphs are worked on, each port then lists the far ends of its connections in the order of
this one list (`Chronicle.opposites_eq_farEnds`). So one list accounts for both ends of every
connection, and for parallel connections and loops.
-/

namespace PortGraph

open PortGraph.Graph

/-- A graph together with its connections in the order in which they were made. -/
structure Chronicle (ν : Type) where
  graph : Graph ν
  log : List Link

namespace Chronicle

variable {φ : Flavour} {ν : Type}

/-! ## Keeping the list -/

/-- A new graph has no connections. -/
def empty (id : GraphId) : Chronicle ν := ⟨.empty id, []⟩

/-- A connection that was made is added at the end. -/
def connected (c : Chronicle ν) (outcome : Graph ν × Except ConnectError Bool) (l : Link) :
    Chronicle ν :=
  match outcome with
  | (h, .ok true) => ⟨h, c.log ++ [l]⟩
  | (h, _) => ⟨h, c.log⟩

/-- A connection that was removed is deleted where it occurs first. -/
def disconnected (c : Chronicle ν) (outcome : Graph ν × Except ConnectError Bool) (l : Link) :
    Chronicle ν :=
  match outcome with
  | (h, .ok true) => ⟨h, c.log.erase l⟩
  | (h, _) => ⟨h, c.log⟩

/-- The vertex is not in `h` any more. -/
def lost (c : Chronicle ν) (h : Graph ν) (k : NodeId) : Bool :=
  c.graph.contains k && !h.contains k

/-- With vertices that went away their connections are deleted. -/
def lose (c : Chronicle ν) (h : Graph ν) : Chronicle ν :=
  ⟨h, c.log.filter fun l => !(c.lost h l.output.node || c.lost h l.input.node)⟩

variable [Vertex φ ν]

/-- All connections of a port are deleted. -/
def disconnectAll (c : Chronicle ν) (d : Direction) (s : Slot) : Chronicle ν :=
  ⟨(c.graph.disconnectAll d s).val.1, c.log.filter fun l => l.side d ≠ s⟩

/-- A clone begins with the connections of the graph in the order of the inputs. -/
def clone (c : Chronicle ν) (id : GraphId) : Chronicle ν :=
  ⟨(c.graph.clone id).val, Link.byInput c.log⟩

/-- Copies bring the connections of the source along, renamed, in the order of the inputs. -/
def copyInto (source dest : Chronicle ν) : Chronicle ν :=
  match (source.graph.copyInto dest.graph).val with
  | (h, .ok names) =>
    ⟨h, dest.log ++ (Link.byInput source.log).filterMap (Graph.renamedLink? names)⟩
  | (h, .error _) => ⟨h, dest.log⟩

/-- Vertices that move bring their connections along, renamed. -/
def moveInto (source dest : Chronicle ν) : Chronicle ν × Chronicle ν :=
  match (source.graph.moveInto dest.graph).val with
  | ⟨g, h, .ok names⟩ =>
    (⟨g, []⟩, ⟨h, dest.log ++ source.log.filterMap (Graph.renamedLink? names)⟩)
  | ⟨g, h, .error _⟩ => (⟨g, source.log⟩, ⟨h, dest.log⟩)

/-- Where only some vertices move, the connections between two of them are brought along and those
to the others are deleted. -/
def releaseInto (source : Chronicle ν) (subset : List NodeId) (dest : Chronicle ν) :
    Chronicle ν × Chronicle ν :=
  match (source.graph.releaseInto subset dest.graph).val with
  | ⟨g, h, .ok names⟩ =>
    (⟨g, source.log.filter fun l =>
        !(subset.contains l.output.node || subset.contains l.input.node)⟩,
      ⟨h, dest.log ++ (source.log.filter fun l =>
        subset.contains l.output.node && subset.contains l.input.node).filterMap
          (Graph.renamedLink? names)⟩)
  | ⟨g, h, .error _⟩ => (⟨g, source.log⟩, ⟨h, dest.log⟩)

/-! ## Histories -/

/-- What is done with one graph, and what becomes of its list. -/
inductive Change : Chronicle ν → Chronicle ν → Prop
  | insert (c : Chronicle ν) (v : ν) : Change c ⟨(c.graph.insert v).val.1, c.log⟩
  | insertCopy (c : Chronicle ν) (v : ν) : Change c ⟨(c.graph.insertCopy v).val.1, c.log⟩
  | connect (c : Chronicle ν) (d : Direction) (port opposite : Slot) :
    Change c (c.connected (c.graph.connect d port opposite).val (.between d port opposite))
  | link (c : Chronicle ν) (l : Link) : Change c (c.connected (c.graph.link l).val l)
  | disconnect (c : Chronicle ν) (d : Direction) (port opposite : Slot) :
    Change c (c.disconnected (c.graph.disconnect d port opposite).val (.between d port opposite))
  | disconnectAll (c : Chronicle ν) (d : Direction) (port : Slot) :
    Change c (c.disconnectAll d port)
  | erase (c : Chronicle ν) (id : NodeId) : Change c (c.lose (c.graph.erase id).val.1)
  | release (c : Chronicle ν) (id : NodeId) : Change c (c.lose (c.graph.release id).val.1)
  | retain {σ : Type} (c : Chronicle ν) (keep : NodeId → ν → StateM σ Bool) (s : σ) :
    Change c (c.lose (c.graph.retain keep s).val.1)
  | clear (c : Chronicle ν) : Change c ⟨c.graph.clear.val, []⟩

/-- The chronicles of any number of graphs that can come about, beginning with none. -/
inductive History : List (Chronicle ν) → Prop
  | start : History []
  | new {cs : List (Chronicle ν)} (hcs : History cs) (id : GraphId) : History (cs ++ [.empty id])
  | change {cs : List (Chronicle ν)} {i : Nat} {c c' : Chronicle ν} (hcs : History cs)
    (hi : cs[i]? = some c) (hc : Change c c') : History (cs.set i c')
  | clone {cs : List (Chronicle ν)} {i : Nat} {c : Chronicle ν} (hcs : History cs)
    (hi : cs[i]? = some c) (id : GraphId) : History (cs ++ [c.clone id])
  | copyInto {cs : List (Chronicle ν)} {i j : Nat} {c c' : Chronicle ν} (hcs : History cs)
    (hi : cs[i]? = some c) (hj : cs[j]? = some c') (hij : i ≠ j) :
    History (cs.set j (c.copyInto c'))
  | moveInto {cs : List (Chronicle ν)} {i j : Nat} {c c' : Chronicle ν} (hcs : History cs)
    (hi : cs[i]? = some c) (hj : cs[j]? = some c') (hij : i ≠ j) :
    History ((cs.set i (c.moveInto c').1).set j (c.moveInto c').2)
  | releaseInto {cs : List (Chronicle ν)} {i j : Nat} {c c' : Chronicle ν} (hcs : History cs)
    (hi : cs[i]? = some c) (hj : cs[j]? = some c') (hij : i ≠ j) (subset : List NodeId) :
    History ((cs.set i (c.releaseInto subset c').1).set j (c.releaseInto subset c').2)

/-! ## Faithful chronicles -/

/-- The list accounts for what every port of the graph lists. -/
structure Faithful (c : Chronicle ν) : Prop where
  peers (d : Direction) (s : Slot) : c.graph.peers d s = Link.farEnds d s c.log
  bounded : c.graph.Bounded

namespace Faithful

variable {c c' : Chronicle ν}

/-- Both ends of every connection are ports of the graph. -/
theorem hasPort (hc : c.Faithful) {l : Link} (hl : l ∈ c.log) (d : Direction) :
    c.graph.HasPort d (l.side d) := by
  have hmem : l.side d.opposite ∈ c.graph.peers d (l.side d) := by
    rw [hc.peers, Link.mem_farEnds, Link.between_side]
    exact hl
  exact hasPort_of_mem_peers hmem

/-- The graph of a faithful chronicle is consistent. -/
theorem consistent (hc : c.Faithful) : c.graph.Consistent := by
  apply consistent_iff.mpr
  intro d s t
  rw [hc.peers, hc.peers, Link.count_farEnds, Link.count_farEnds, Link.between_opposite]

/-- A graph without vertices is accounted for by the empty list. -/
theorem of_vertices_eq_empty {g : Graph ν} (h : g.vertices = .empty) :
    (⟨g, []⟩ : Chronicle ν).Faithful where
  peers := peers_of_vertices_eq_empty h
  bounded := bounded_of_vertices_eq_empty h

/-- Where vertices went away, what is left of the list accounts for what is left of the graph. -/
theorem excision (hc : c.Faithful) {h : Graph ν} {gone : NodeId → Bool}
    (he : Excision c.graph h gone) :
    (⟨h, c.log.filter fun l => !(gone l.output.node || gone l.input.node)⟩ :
      Chronicle ν).Faithful := by
  refine ⟨?_, he.bounded hc.bounded⟩
  intro d s
  have hends (t : Slot) : (gone (Link.between d s t).output.node ||
      gone (Link.between d s t).input.node) = (gone s.node || gone t.node) := by
    cases d with
    | incoming => exact Bool.or_comm _ _
    | outgoing => rfl
  rw [Link.farEnds_filter, ← hc.peers]
  simp only [hends]
  change h.peers d s = _
  rw [he.peers]
  cases hs : gone s.node with
  | true => simp
  | false => simp

/-- The connections of vertices that went away are deleted. -/
theorem lose (hc : c.Faithful) {h : Graph ν} {gone : NodeId → Bool}
    (he : Excision c.graph h gone) : (c.lose h).Faithful := by
  have hlost (k : NodeId) (hk : c.graph.contains k = true) : c.lost h k = gone k := by
    unfold Chronicle.lost
    rw [he.contains_eq, hk]
    simp
  have hlog : (c.lose h).log =
      c.log.filter fun l => !(gone l.output.node || gone l.input.node) := by
    apply List.filter_congr
    intro l hl
    have hout : c.graph.contains l.output.node = true :=
      contains_iff.mpr (hc.hasPort hl .outgoing).exists_find?
    have hin : c.graph.contains l.input.node = true :=
      contains_iff.mpr (hc.hasPort hl .incoming).exists_find?
    rw [hlost _ hout, hlost _ hin]
  have hchronicle : c.lose h =
      ⟨h, c.log.filter fun l => !(gone l.output.node || gone l.input.node)⟩ := by
    rw [← hlog]
    rfl
  rw [hchronicle]
  exact hc.excision he

/-! ### Connections -/

section Connections

variable [LawfulPorts φ ν]

/-- A new connection comes last in the list, and last at both of its ports. -/
theorem connect (hc : c.Faithful) (d : Direction) (p q : Slot) :
    (c.connected (c.graph.connect d p q).val (.between d p q)).Faithful := by
  by_cases h : c.graph.Admits (.between d p q)
  · rw [connect_of_admits h]
    refine ⟨?_, (c.graph.rewired_join d p q).bounded hc.bounded⟩
    intro e s
    change (c.graph.join d p q).peers e s = Link.farEnds e s (c.log ++ [.between d p q])
    rw [peers_join h, Link.farEnds_append, hc.peers]
  · obtain ⟨hsame, hanswer⟩ := connect_of_not_admits h
    generalize (c.graph.connect d p q).val = outcome at hsame hanswer
    obtain ⟨g, answer⟩ := outcome
    have hgraph : c.connected (g, answer) (.between d p q) = c := by
      have hg : g = c.graph := hsame
      rw [hg]
      match answer, hanswer with
      | .ok false, _ => rfl
      | .error _, _ => rfl
      | .ok true, hanswer => exact absurd rfl hanswer
    rw [hgraph]
    exact hc

/-- Where the list has the connection, so have its two ports. -/
theorem disconnect (hc : c.Faithful) (d : Direction) (p q : Slot) :
    (c.disconnected (c.graph.disconnect d p q).val (.between d p q)).Faithful := by
  by_cases h : c.graph.Links (.between d p q)
  · rw [disconnect_of_links h]
    refine ⟨?_, (c.graph.rewired_part d p q).bounded hc.bounded⟩
    intro e s
    change (c.graph.part d p q).peers e s = Link.farEnds e s (c.log.erase (.between d p q))
    rw [peers_part, Link.farEnds_erase, hc.peers]
  · obtain ⟨hsame, hanswer⟩ := disconnect_of_not_links h
    generalize (c.graph.disconnect d p q).val = outcome at hsame hanswer
    obtain ⟨g, answer⟩ := outcome
    have hgraph : c.disconnected (g, answer) (.between d p q) = c := by
      have hg : g = c.graph := hsame
      rw [hg]
      match answer, hanswer with
      | .ok false, _ => rfl
      | .error _, _ => rfl
      | .ok true, hanswer => exact absurd rfl hanswer
    rw [hgraph]
    exact hc

/-- The connections of a port go at both ends. -/
theorem disconnectAll (hc : c.Faithful) (d : Direction) (s : Slot) :
    (c.disconnectAll d s).Faithful := by
  have hr := c.graph.removal_disconnectAll d s
  refine ⟨?_, hr.rewired.bounded hc.bounded⟩
  intro e t
  change (c.graph.disconnectAll d s).val.1.peers e t =
    Link.farEnds e t (c.log.filter fun l => l.side d ≠ s)
  rw [peers_disconnectAll hc.consistent, Link.farEnds_filter, hc.peers]
  apply List.filter_congr
  intro x _
  exact (decide_not (p := (Link.between e t x).side d = s)).symm

end Connections

/-! ### Several graphs -/

/-- The links of the inputs are those of the list, in the order of the inputs. -/
theorem inboundLinks_eq (hc : c.Faithful) : c.graph.inboundLinks = Link.byInput c.log :=
  inboundLinks_eq_byInput fun s => hc.peers .incoming s

variable [SteadyVertex φ ν]

theorem clone (hc : c.Faithful) (id : GraphId) : (c.clone id).Faithful where
  peers d s := by
    change (c.graph.clone id).val.peers d s = Link.farEnds d s (Link.byInput c.log)
    rw [peers_clone hc.consistent, hc.inboundLinks_eq]
  bounded := hc.bounded.clone id

theorem copyInto (hc : c.Faithful) (hc' : c'.Faithful) : (c.copyInto c').Faithful := by
  obtain ⟨_, names, _, hok, _, hpeers⟩ := copyInto_eq hc.consistent hc'.bounded
  have hbounded := hc'.bounded.copyInto c.graph
  rw [hc.inboundLinks_eq] at hpeers
  unfold Chronicle.copyInto
  generalize (c.graph.copyInto c'.graph).val = outcome at hok hpeers hbounded
  obtain ⟨h, answer⟩ := outcome
  cases hok
  refine ⟨?_, hbounded⟩
  intro d s
  change h.peers d s = _
  rw [hpeers, Link.farEnds_append, hc'.peers]

/-- Renaming the connections that are brought along renames the lists of the vertices that move. -/
theorem relink {source : Graph ν} {ids : List NodeId} {ls : List Link} (hc' : c'.Faithful)
    {h : Graph ν} {names : Renaming} (hen : Enrolled c'.graph (source.movers ids) h names)
    (hls : ∀ d s, source.peers d s = Link.farEnds d s ls) :
    (⟨h.relink names, c'.log ++ ls.filterMap (renamedLink? names)⟩ : Chronicle ν).Faithful := by
  refine ⟨?_, (rewired_relink _ _).bounded hen.bounded⟩
  intro d t
  change (h.relink names).peers d t = Link.farEnds d t (c'.log ++ _)
  rw [Link.farEnds_append, ← hc'.peers]
  by_cases hnamed : ∃ k, names.get? k = some t.node
  · obtain ⟨k, hk⟩ := hnamed
    have hs := Renaming.slot?_of_get? hk
    rw [hen.farEnds_renamed hc'.bounded hs, ← hls]
    exact hen.peers_relink_of_retains hs (source.retains_of_steady names _ d _)
  · have hnot : ∀ k, names.get? k ≠ some t.node := fun k hk => hnamed ⟨k, hk⟩
    rw [Renaming.farEnds_filterMap_eq_nil hnot, List.append_nil]
    exact hen.peers_relink_of_not_named hnot d

theorem moveInto (hc : c.Faithful) (hc' : c'.Faithful) :
    (c.moveInto c').1.Faithful ∧ (c.moveInto c').2.Faithful := by
  obtain ⟨h, names, hval, hen⟩ := moveInto_eq c.graph hc'.bounded
  unfold Chronicle.moveInto
  rw [hval]
  exact ⟨.of_vertices_eq_empty rfl, hc'.relink hen hc.peers⟩

omit [SteadyVertex φ ν] [Vertex φ ν] in
/-- Among the links that do not cross the border of a set of vertices, only those between two of
them have new names if only these vertices have. -/
theorem filterMap_filter_crosses {names : Renaming} {subset : List NodeId}
    (hnames : ∀ k a, names.get? k = some a → k ∈ subset) (ls : List Link) :
    (ls.filter fun l => !crosses subset l).filterMap (renamedLink? names) =
      (ls.filter fun l => subset.contains l.output.node &&
        subset.contains l.input.node).filterMap (renamedLink? names) := by
  rw [List.filterMap_filter, List.filterMap_filter]
  refine congrArg (List.filterMap · ls) (funext fun l => ?_)
  have hunnamed : subset.contains l.output.node = false → renamedLink? names l = none := by
    intro hout
    unfold renamedLink?
    cases hk : names.get? l.output.node with
    | none => rfl
    | some a =>
      have hmem := hnames _ a hk
      rw [← List.contains_iff_mem, hout] at hmem
      cases hmem
  unfold crosses
  cases hout : subset.contains l.output.node with
  | false => simp [hunnamed hout]
  | true =>
    cases subset.contains l.input.node with
    | true => rfl
    | false => rfl

theorem releaseInto (hc : c.Faithful) (hc' : c'.Faithful) (subset : List NodeId) :
    (c.releaseInto subset c').1.Faithful ∧ (c.releaseInto subset c').2.Faithful := by
  by_cases hsub : ∀ k ∈ subset, c.graph.contains k = true
  · obtain ⟨h, names, hval, hen, hdomain⟩ := releaseInto_eq hc.consistent hc'.bounded hsub
    have he := excision_severed hc.consistent hsub
    have hsevered (d : Direction) (s : Slot) : (c.graph.severed subset).peers d s =
        Link.farEnds d s (c.log.filter fun l => !crosses subset l) := by
      rw [peers_severed hc.consistent, Link.farEnds_filter, hc.peers]
    have hmoved := hc'.relink hen hsevered
    rw [filterMap_filter_crosses fun k a hk => (hdomain k).mp ⟨a, hk⟩] at hmoved
    unfold Chronicle.releaseInto
    rw [hval]
    exact ⟨hc.excision he, hmoved⟩
  · obtain ⟨k, _, _, _, hval⟩ := releaseInto_of_missing c'.graph hsub
    unfold Chronicle.releaseInto
    rw [hval]
    exact ⟨hc, hc'⟩

/-! ### Along a history -/

/-- Whatever is done with one graph, its list still accounts for it. -/
theorem change (hc : c.Faithful) (hchange : Change c c') : c'.Faithful := by
  cases hchange with
  | insert _ v =>
    exact ⟨fun d s => (peers_insert c.graph v d s).trans (hc.peers d s), hc.bounded.insert v⟩
  | insertCopy _ v =>
    exact ⟨fun d s => (peers_insert c.graph _ d s).trans (hc.peers d s), hc.bounded.insert _⟩
  | connect _ d p q => exact hc.connect d p q
  | link _ l => exact hc.connect .outgoing l.output l.input
  | disconnect _ d p q => exact hc.disconnect d p q
  | disconnectAll _ d p => exact hc.disconnectAll d p
  | erase _ id => exact hc.lose (excision_erase hc.consistent id)
  | release _ id =>
    rw [val_release c.graph id hc.consistent]
    exact hc.lose (excision_erase hc.consistent id)
  | retain _ keep s => exact hc.lose (excision_retain hc.consistent keep s)
  | clear => exact .of_vertices_eq_empty rfl

end Faithful

/-- In a history every list accounts for its graph. -/
theorem History.faithful [SteadyVertex φ ν] {cs : List (Chronicle ν)} (h : History cs) :
    ∀ c ∈ cs, c.Faithful := by
  induction h with
  | start =>
    intro c hc
    cases hc
  | new _ id ih => exact forall_mem_concat ih (.of_vertices_eq_empty rfl)
  | change _ hi hchange ih =>
    have hc := ih _ (List.mem_of_getElem? hi)
    exact forall_mem_set ih _ (hc.change hchange)
  | clone _ hi id ih =>
    have hc := ih _ (List.mem_of_getElem? hi)
    exact forall_mem_concat ih (hc.clone id)
  | copyInto _ hi hj _ ih =>
    have hc := ih _ (List.mem_of_getElem? hi)
    have hc' := ih _ (List.mem_of_getElem? hj)
    exact forall_mem_set ih _ (hc.copyInto hc')
  | moveInto _ hi hj _ ih =>
    have hc := ih _ (List.mem_of_getElem? hi)
    have hc' := ih _ (List.mem_of_getElem? hj)
    obtain ⟨hsource, hdest⟩ := hc.moveInto hc'
    exact forall_mem_set (forall_mem_set ih _ hsource) _ hdest
  | releaseInto _ hi hj _ subset ih =>
    have hc := ih _ (List.mem_of_getElem? hi)
    have hc' := ih _ (List.mem_of_getElem? hj)
    obtain ⟨hsource, hdest⟩ := hc.releaseInto hc' subset
    exact forall_mem_set (forall_mem_set ih _ hsource) _ hdest

/-- In every history of graphs of weighted vertices, each port lists the far ends of its connections
in the order of the list of its graph, and the list holds no other connections. -/
theorem opposites_eq_farEnds {ω : Type} {cs : List (Chronicle (Node φ ω))} (h : History cs)
    {c : Chronicle (Node φ ω)} (hc : c ∈ cs) :
    (∀ d s p, c.graph.port d s = .ok p → p.opposites = Link.farEnds d s c.log) ∧
      ∀ l ∈ c.log, ∀ d, ∃ p, c.graph.port d (l.side d) = .ok p := by
  have hfaithful := h.faithful c hc
  constructor
  · intro d s p hp
    rw [← hfaithful.peers, peers_eq_of_port? (port_eq_ok_iff.mp hp)]
  · intro l hl d
    obtain ⟨p, hp⟩ := hfaithful.hasPort hl d
    exact ⟨p, port_eq_ok_iff.mpr hp⟩

/-- A vertex whose output was connected to its second input, to its first, and to the second again.
-/
def knot : Chronicle (Node .multi Unit) :=
  let output : Slot := ⟨.first, 0⟩
  let connectTo (c : Chronicle (Node .multi Unit)) (i : Nat) :=
    c.connected (c.graph.connect .outgoing output ⟨.first, i⟩).val ⟨output, ⟨.first, i⟩⟩
  let c := ⟨((Graph.empty .first).insert (Node.new () 2 1)).val.1, []⟩
  connectTo (connectTo (connectTo c 1) 0) 1

theorem history_knot : History [knot] := by
  have h₀ : History [(empty .first : Chronicle (Node .multi Unit))] := History.start.new .first
  have h₁ := h₀.change (i := 0) rfl (.insert _ (Node.new () 2 1))
  have h₂ := h₁.change (i := 0) rfl (.connect _ .outgoing ⟨.first, 0⟩ ⟨.first, 1⟩)
  have h₃ := h₂.change (i := 0) rfl (.connect _ .outgoing ⟨.first, 0⟩ ⟨.first, 0⟩)
  exact h₃.change (i := 0) rfl (.connect _ .outgoing ⟨.first, 0⟩ ⟨.first, 1⟩)

/-- The output of a clone of the knot lists the inputs in their order, as the list of the clone has
them. -/
theorem opposites_eq_farEnds_knot :
    History [knot, knot.clone ⟨2⟩] ∧ knot.clone ⟨2⟩ ∈ [knot, knot.clone ⟨2⟩] ∧
      ∃ p, (knot.clone ⟨2⟩).graph.port .outgoing ⟨.first, 0⟩ = .ok p ∧
        p.opposites = [⟨.first, 0⟩, ⟨.first, 1⟩, ⟨.first, 1⟩] ∧
        p.opposites = Link.farEnds .outgoing ⟨.first, 0⟩ (knot.clone ⟨2⟩).log := by
  have hclone : History [knot, knot.clone ⟨2⟩] := history_knot.clone (i := 0) rfl ⟨2⟩
  have hmem : knot.clone ⟨2⟩ ∈ [knot, knot.clone ⟨2⟩] := .tail _ (.head _)
  have hport : (knot.clone ⟨2⟩).graph.port .outgoing ⟨.first, 0⟩ =
      .ok ⟨0, [⟨.first, 0⟩, ⟨.first, 1⟩, ⟨.first, 1⟩], by decide⟩ := rfl
  exact ⟨hclone, hmem, _, hport, rfl, (opposites_eq_farEnds hclone hmem).1 _ _ _ hport⟩

end Chronicle

end PortGraph
