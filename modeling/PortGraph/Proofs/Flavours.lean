import PortGraph.Graph.Search
import PortGraph.Proofs.Culling

/-!
# Single ports as multiple ports

A single port can be taken for a multiple port that happens to have one opposite at most, and so can
vertices and graphs (`widen`). Nothing is lost by it, and whatever is read off a graph without
regard to the flavour of its ports stays the same: identifiers, opposites, neighbours, and the order
in which the vertices are sorted. Changes at one end of a connection come to the same as well, as
long as a single port has room for what it is to be connected to.
-/

namespace PortGraph

/-! ## Ports -/

namespace Port

variable {φ : Flavour}

/-- The port as a multiple port. -/
def widen (p : Port φ) : Port .multi := ⟨p.offset, p.opposites, nofun⟩

@[simp] theorem opposites_widen (p : Port φ) : p.widen.opposites = p.opposites := rfl

@[simp] theorem isConnected_widen (p : Port φ) : p.widen.isConnected = p.isConnected := rfl

/-- Where there is room, the new opposite comes last for either flavour. -/
theorem widen_link {p : Port φ} {other : Slot} (h : φ = .multi ∨ p.opposites = []) :
    (p.link other).widen = p.widen.link other := by
  refine ext rfl ?_
  rw [opposites_widen, opposites_link h, opposites_link (.inl rfl), opposites_widen]

/-- A single port can be asked about a connection unless it has another. -/
theorem checkUnlink_widen (p : Port φ) (d : Direction) (this other : Slot) :
    p.widen.checkUnlink d this other = p.checkUnlink d this other ∨
      p.checkUnlink d this other =
          .error (.inconsistentConnection (this.at d) (other.at d.opposite)) ∧
        p.widen.checkUnlink d this other = .ok false := by
  obtain ⟨offset, opposites, hlen⟩ := p
  cases φ with
  | multi => exact .inl rfl
  | single =>
    match opposites, hlen rfl with
    | [], _ => exact .inl rfl
    | [current], _ =>
      by_cases hc : current = other
      · simp [widen, checkUnlink, hc]
      · simp [widen, checkUnlink, hc, Ne.symm hc]

end Port

/-! ## Vertices -/

namespace Node

variable {φ : Flavour} {ω : Type}

/-- The vertex with its ports as multiple ports. -/
def widen (v : Node φ ω) : Node .multi ω where
  weight := v.weight
  inputs := v.inputs.map Port.widen
  outputs := v.outputs.map Port.widen
  binding := v.binding

/-- A vertex with multiple ports is not changed by it. -/
theorem widen_multi (v : Node .multi ω) : v.widen = v := by
  have hports : (Port.widen : Port .multi → Port .multi) = id := rfl
  rw [widen, hports, List.map_id, List.map_id]

theorem ports_widen (d : Direction) (v : Node φ ω) :
    Vertex.ports d v.widen = (Vertex.ports d v).map Port.widen := by
  cases d <;> rfl

theorem widen_setPorts (d : Direction) (ps : List (Port φ)) (v : Node φ ω) :
    (Vertex.setPorts d ps v).widen = Vertex.setPorts d (ps.map Port.widen) v.widen := by
  cases d <;> rfl

theorem port?_widen (d : Direction) (i : Nat) (v : Node φ ω) :
    Vertex.port? d i v.widen = (Vertex.port? d i v).map Port.widen := by
  rw [Vertex.port?, ports_widen, List.getElem?_map]
  rfl

theorem widen_new (weight : ω) (inputs outputs : Nat) :
    (new weight inputs outputs : Node φ ω).widen = new weight inputs outputs := by
  unfold widen new Port.row
  rw [List.map_map, List.map_map]
  rfl

/-- A port is changed as a multiple port is. -/
theorem widen_adjustPort {d : Direction} {i : Nat} {f : Port φ → Port φ}
    {f' : Port .multi → Port .multi} {v : Node φ ω}
    (h : ∀ p, Vertex.port? d i v = some p → (f p).widen = f' p.widen) :
    (Vertex.adjustPort d i f v).widen = Vertex.adjustPort d i f' v.widen := by
  rw [Vertex.adjustPort, widen_setPorts, Vertex.adjustPort, ports_widen]
  refine congrArg (Vertex.setPorts d · v.widen) (List.ext_getElem? fun j => ?_)
  rw [List.getElem?_map, List.getElem?_modify, List.getElem?_modify, List.getElem?_map]
  cases hp : (Vertex.ports d v)[j]? with
  | none => rfl
  | some p =>
    refine congrArg some ?_
    change (if i = j then f p else p).widen = if i = j then f' p.widen else p.widen
    by_cases hj : i = j
    · rw [if_pos hj, if_pos hj]
      exact h p (hj ▸ hp)
    · rw [if_neg hj, if_neg hj]

/-- All ports are changed as multiple ports are. -/
theorem widen_mapPorts {f : Port φ → Port φ} {f' : Port .multi → Port .multi}
    (h : ∀ p, (f p).widen = f' p.widen) (v : Node φ ω) :
    (Vertex.mapPorts f v).widen = Vertex.mapPorts f' v.widen := by
  have hmap (ps : List (Port φ)) : (ps.map f).map Port.widen = (ps.map Port.widen).map f' := by
    rw [List.map_map, List.map_map]
    exact List.map_congr_left fun p _ => h p
  simp only [Vertex.mapPorts, widen_setPorts, hmap, ← ports_widen]

theorem widen_clearLinks (v : Node φ ω) :
    (Vertex.clearLinks v).widen = Vertex.clearLinks v.widen :=
  widen_mapPorts (fun (_ : Port φ) => rfl) v

theorem widen_renameLinks (name : NodeId → Option NodeId) (v : Node φ ω) :
    (Vertex.renameLinks name v).widen = Vertex.renameLinks name v.widen :=
  widen_mapPorts (fun (_ : Port φ) => rfl) v

theorem widen_copy (v : Node φ ω) : (Vertex.copy v).widen = Vertex.copy v.widen := by
  have hmap (ps : List (Port φ)) :
      (ps.map Port.copy).map Port.widen = (ps.map Port.widen).map Port.copy := by
    rw [List.map_map, List.map_map]
    rfl
  change (⟨v.weight, (v.inputs.map Port.copy).map Port.widen,
    (v.outputs.map Port.copy).map Port.widen, v.binding.copy⟩ : Node .multi ω) = _
  rw [hmap, hmap]
  rfl

theorem widen_joinedCopy (id : GraphId) (k : NodeId) (v : Node φ ω) :
    (Graph.joinedCopy id k v).val.widen = (Graph.joinedCopy id k v.widen).val := by
  unfold Graph.joinedCopy
  rw [← widen_copy, ← widen_clearLinks]
  rfl

/-- A vertex that was rewired was also with its ports as multiple ports. -/
theorem rewired_widen {v w : Node φ ω} (h : Vertex.Rewired v w) :
    Vertex.Rewired v.widen w.widen where
  offsets d := by
    rw [ports_widen, ports_widen, List.map_map, List.map_map]
    exact h.offsets d
  observe f hf := h.observe (fun u => f u.widen) fun d ps u => by rw [widen_setPorts, hf]

/-! ### What is read off a vertex -/

@[simp] theorem contacts_widen (d : Direction) (id : NodeId) (v : Node φ ω) :
    Vertex.contacts d id v.widen = Vertex.contacts d id v := by
  unfold Vertex.contacts
  rw [ports_widen, List.zipIdx_map, List.flatMap_map]
  rfl

@[simp] theorem links_widen (d : Direction) (id : NodeId) (v : Node φ ω) :
    Vertex.links d id v.widen = Vertex.links d id v := by
  unfold Vertex.links
  rw [contacts_widen]

@[simp] theorem neighbours_widen (d : Direction) (v : Node φ ω) :
    Vertex.neighbours d v.widen = Vertex.neighbours d v := by
  unfold Vertex.neighbours
  rw [ports_widen, List.flatMap_map]
  rfl

@[simp] theorem isConnected_widen (d : Direction) (v : Node φ ω) :
    Vertex.isConnected d v.widen = Vertex.isConnected d v := by
  unfold Vertex.isConnected
  rw [ports_widen, List.any_map]
  rfl

end Node

/-! ## Graphs -/

namespace Graph

variable {φ : Flavour} {ω : Type}

/-- The graph with all ports as multiple ports. -/
def widen (g : Graph (Node φ ω)) : Graph (Node .multi ω) :=
  ⟨g.id, g.vertices.mapValues fun _ v => v.widen, g.next⟩

variable (g : Graph (Node φ ω))

theorem find?_widen (k : NodeId) : g.widen.find? k = (g.find? k).map Node.widen :=
  IdMap.get?_mapValues g.vertices _ k

@[simp] theorem contains_widen (k : NodeId) : g.widen.contains k = g.contains k := by
  have hsome := congrArg Option.isSome (g.find?_widen k)
  rwa [Option.isSome_map] at hsome

@[simp] theorem ids_widen : g.widen.ids = g.ids := by
  change (g.vertices.entries.map _).map Prod.fst = g.vertices.entries.map Prod.fst
  rw [List.map_map]
  rfl

@[simp] theorem inboundLinks_widen : g.widen.inboundLinks = g.inboundLinks := by
  change (g.vertices.entries.map _).flatMap _ = g.vertices.entries.flatMap _
  rw [List.flatMap_map]
  exact congrArg (List.flatMap · _) (funext fun e => Node.links_widen .incoming e.1 e.2)

variable {g}

/-! ### Ports of a graph -/

theorem port?_widen (d : Direction) (s : Slot) :
    g.widen.port? d s = (g.port? d s).map Port.widen := by
  rw [port?, find?_widen, port?]
  cases g.find? s.node with
  | none => rfl
  | some v => exact Node.port?_widen d s.offset v

theorem port_widen (d : Direction) (s : Slot) :
    g.widen.port d s = (g.port d s).map Port.widen := by
  rw [port, find?_widen, port]
  cases g.find? s.node with
  | none => rfl
  | some v =>
    simp only [Option.map_some, Node.port?_widen]
    cases Vertex.port? d s.offset v <;> rfl

@[simp] theorem opposites_widen (d : Direction) (s : Slot) :
    g.widen.opposites d s = g.opposites d s := by
  rw [opposites, port_widen, opposites]
  cases g.port d s <;> rfl

@[simp] theorem peers_widen (d : Direction) (s : Slot) : g.widen.peers d s = g.peers d s := by
  rw [peers, port?_widen, peers]
  cases g.port? d s <;> rfl

@[simp] theorem records_widen (d : Direction) (s t : Slot) :
    g.widen.records d s t = g.records d s t := by
  rw [records, opposites_widen, records]

theorem hasPort_widen {d : Direction} {s : Slot} (h : g.HasPort d s) : g.widen.HasPort d s := by
  obtain ⟨p, hp⟩ := h
  exact ⟨p.widen, by rw [port?_widen, hp, Option.map_some]⟩

theorem links_widen {l : Link} : g.widen.Links l ↔ g.Links l := by
  unfold Links
  simp only [peers_widen]

theorem Admits.widen {l : Link} (h : g.Admits l) : g.widen.Admits l :=
  fun d => ⟨hasPort_widen (h d).1, .inl rfl⟩

theorem Consistent.widen (hg : g.Consistent) : g.widen.Consistent := by
  rw [consistent_iff] at hg ⊢
  intro d s t
  rw [peers_widen, peers_widen, hg]

theorem Bounded.widen (hg : g.Bounded) : g.widen.Bounded := fun k hk =>
  hg k (by rwa [contains_widen] at hk)

/-- A vertex is changed as one with multiple ports is. -/
theorem widen_adjust {id : NodeId} {f : Node φ ω → Node φ ω} {f' : Node .multi ω → Node .multi ω}
    (h : ∀ v, g.find? id = some v → (f v).widen = f' v.widen) :
    (g.adjust id f).widen = g.widen.adjust id f' := by
  refine ext_find? rfl rfl fun k => ?_
  rw [find?_widen, find?_adjust, find?_adjust, find?_widen]
  by_cases hk : k = id
  · subst hk
    rw [if_pos rfl, if_pos rfl]
    cases hv : g.find? k with
    | none => rfl
    | some v => exact congrArg some (h v hv)
  · rw [if_neg hk, if_neg hk]

theorem widen_adjustPort {d : Direction} {s : Slot} {f : Port φ → Port φ}
    {f' : Port .multi → Port .multi} (h : ∀ p, g.port? d s = some p → (f p).widen = f' p.widen) :
    (g.adjustPort d s f).widen = g.widen.adjustPort d s f' := by
  refine widen_adjust fun v hv => Node.widen_adjustPort fun p hp => h p ?_
  rw [port?, hv]
  exact hp

/-! ### What is read off a graph -/

@[simp] theorem neighbours_widen (d : Direction) (id : NodeId) :
    g.widen.neighbours d id = g.neighbours d id := by
  rw [neighbours, find?_widen, neighbours]
  cases g.find? id with
  | none => rfl
  | some v => exact Node.neighbours_widen d v

@[simp] theorem isConnected_widen (d : Direction) (id : NodeId) :
    g.widen.isConnected d id = g.isConnected d id := by
  rw [isConnected, find?_widen, isConnected]
  cases g.find? id with
  | none => rfl
  | some v => exact Node.isConnected_widen d v

@[simp] theorem top_widen : g.widen.top = g.top := by
  unfold top
  simp only [ids_widen, isConnected_widen]

@[simp] theorem bottom_widen : g.widen.bottom = g.bottom := by
  unfold bottom
  simp only [ids_widen, isConnected_widen]

@[simp] theorem sort_widen (d : Direction) : g.widen.sort d = g.sort d := by
  have hnext : g.widen.neighbours d = g.neighbours d := funext (neighbours_widen d)
  unfold sort search
  rw [ids_widen, hnext]
  rfl

end Graph

end PortGraph
