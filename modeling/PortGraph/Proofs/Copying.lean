import PortGraph.Proofs.Enrolling

/-!
# Copying graphs

The connections of a copy are made one by one, in the order in which the inputs of the source list
them (`inboundLinks`). Whatever connections are asked for, a consistent graph stays consistent. If
all ports are there and have room, every connection is made, and the lists of opposites grow by the
far ends of the links (`connectAll_spec`).

Among the copies of all vertices of a consistent graph this is always so: `peers_clone` and
`copyInto_eq` say what a copy lists. The inputs of a copy list what the inputs of the source list,
in the same order; the outputs list the same in the order of the inputs.
-/

namespace PortGraph

/-! ## The links of the inputs -/

namespace Graph

variable {φ : Flavour} {ν : Type} [Vertex φ ν]

/-- The links of the inputs of stored vertices, seen at one input. -/
theorem farEnds_flatMap_entries (s : Slot) {es : List (NodeId × ν)}
    (hes : es.Pairwise fun a b => a.1 < b.1) :
    Link.farEnds .incoming s (es.flatMap fun e => Vertex.links .incoming e.1 e.2) =
      match IdMap.lookup s.node es with
      | some v => Vertex.peers .incoming s.offset v
      | none => [] := by
  induction es with
  | nil => rfl
  | cons e rest ih =>
    obtain ⟨hfirst, hrest⟩ := List.pairwise_cons.mp hes
    rw [List.flatMap_cons, Link.farEnds_append, ih hrest, Vertex.farEnds_links, IdMap.lookup]
    by_cases he : e.1 = s.node
    · -- no later vertex has the same identifier
      have hlater : IdMap.lookup s.node rest = none := by
        apply IdMap.lookup_eq_none_of_forall_ne
        intro x hx heq
        have hlt := hfirst x hx
        rw [he, heq] at hlt
        exact NodeId.lt_irrefl _ hlt
      rw [if_pos he.symm, if_pos he, hlater]
      simp
    · rw [if_neg (Ne.symm he), if_neg he, List.nil_append]

/-- The links of the inputs of a graph are the opposites that its inputs list. -/
theorem farEnds_inboundLinks (g : Graph ν) (s : Slot) :
    Link.farEnds .incoming s g.inboundLinks = g.peers .incoming s := by
  have hentries := farEnds_flatMap_entries s g.vertices.ascending
  have hlookup : IdMap.lookup s.node g.vertices.entries = g.find? s.node := rfl
  rw [hlookup] at hentries
  unfold inboundLinks
  rw [hentries]
  cases hv : g.find? s.node with
  | none => rw [peers_eq_nil_of_find? hv]
  | some v => rw [peers_eq_of_find? hv]

/-- The inputs of a consistent graph list each connection as often as there is one. -/
theorem count_inboundLinks {g : Graph ν} (hg : g.Consistent) (l : Link) :
    g.inboundLinks.count l = g.multiplicity l := by
  have hcount := Link.count_farEnds .incoming l.input l.output g.inboundLinks
  rw [farEnds_inboundLinks, hg.count_peers] at hcount
  exact hcount.symm

/-- In either direction, the links of the inputs are those that a port of a consistent graph lists,
perhaps in another order. -/
theorem perm_farEnds_inboundLinks {g : Graph ν} (hg : g.Consistent) (d : Direction) (s : Slot) :
    (Link.farEnds d s g.inboundLinks).Perm (g.peers d s) := by
  apply List.perm_iff_count.mpr
  intro t
  rw [Link.count_farEnds, count_inboundLinks hg, hg.count_peers]

/-- Both ends of a link of the inputs of a consistent graph are ports. -/
theorem hasPort_of_mem_inboundLinks {g : Graph ν} (hg : g.Consistent) {l : Link}
    (hl : l ∈ g.inboundLinks) (d : Direction) : g.HasPort d (l.side d) := by
  have hmem : l.side .outgoing ∈ g.peers .incoming (l.side .incoming) := by
    rw [← farEnds_inboundLinks, Link.mem_farEnds]
    exact hl
  cases d with
  | incoming => exact hasPort_of_mem_peers hmem
  | outgoing => exact hg.hasPort hmem

/-! ## Making many connections -/

/-- Making connections only rewires a graph. -/
theorem rewired_connectAll [LawfulPorts φ ν] (g : Graph ν) (ls : List Link) :
    Rewired g (g.connectAll ls).val.1 := by
  induction ls generalizing g with
  | nil => exact .refl g
  | cons l rest ih =>
    have hfirst := g.rewired_connect .incoming l.input l.output
    unfold connectAll
    rw [Journaled.val_bind]
    generalize (g.connect .incoming l.input l.output).val = made at hfirst
    obtain ⟨h, e | b⟩ := made
    · exact hfirst
    · exact hfirst.trans (ih h)

/-- Making connections keeps a graph consistent, whether or not one of them fails. -/
theorem Consistent.connectAll [LawfulPorts φ ν] {g : Graph ν} (hg : g.Consistent) (ls : List Link) :
    (g.connectAll ls).val.1.Consistent := by
  induction ls generalizing g with
  | nil => exact hg
  | cons l rest ih =>
    have hfirst := hg.connect .incoming l.input l.output
    unfold Graph.connectAll
    rw [Journaled.val_bind]
    generalize (g.connect .incoming l.input l.output).val = made at hfirst
    obtain ⟨h, e | b⟩ := made
    · exact hfirst
    · exact ih hfirst

/-- If all ports are there and have room, all connections are made, in order. -/
theorem connectAll_spec [LawfulPorts φ ν] {g : Graph ν} {ls : List Link}
    (hport : ∀ l ∈ ls, ∀ d, g.HasPort d (l.side d))
    (hroom : φ = .multi ∨ ∀ d s, (g.peers d s ++ Link.farEnds d s ls).length ≤ 1) :
    (g.connectAll ls).val.2 = .ok () ∧
      ∀ d s, (g.connectAll ls).val.1.peers d s = g.peers d s ++ Link.farEnds d s ls := by
  induction ls generalizing g with
  | nil => exact ⟨rfl, fun d s => (List.append_nil _).symm⟩
  | cons l rest ih =>
    have hl : Link.between .incoming l.input l.output = l := rfl
    have hadmits : g.Admits (.between .incoming l.input l.output) := by
      intro d
      refine ⟨hport l (.head _) d, hroom.imp_right ?_⟩
      intro hlen
      -- the new far end leaves no room for another one
      have hle := hlen d (l.side d)
      rw [Link.farEnds_cons, if_pos rfl, List.length_append, List.length_cons] at hle
      have hzero : (g.peers d (l.side d)).length = 0 := by omega
      exact List.length_eq_zero_iff.mp hzero
    have hr := g.rewired_join .incoming l.input l.output
    have hpeers (d : Direction) (s : Slot) :
        (g.join .incoming l.input l.output).peers d s ++ Link.farEnds d s rest =
          g.peers d s ++ Link.farEnds d s (l :: rest) := by
      rw [peers_join hadmits, hl, List.append_assoc, ← Link.farEnds_append]
      rfl
    have hport' : ∀ m ∈ rest, ∀ d, (g.join .incoming l.input l.output).HasPort d (m.side d) :=
      fun m hm d => hr.hasPort_iff.mpr (hport m (.tail _ hm) d)
    have hroom' : φ = .multi ∨ ∀ d s,
        ((g.join .incoming l.input l.output).peers d s ++ Link.farEnds d s rest).length ≤ 1 := by
      apply hroom.imp_right
      intro hlen d s
      rw [hpeers]
      exact hlen d s
    obtain ⟨hok, hrest⟩ := ih hport' hroom'
    have hval : (g.connectAll (l :: rest)).val =
        ((g.join .incoming l.input l.output).connectAll rest).val := by
      rw [connectAll, Journaled.val_bind, connect_of_admits hadmits]
    rw [hval]
    refine ⟨hok, ?_⟩
    intro d s
    rw [hrest, hpeers]

/-! ## Clones -/

/-- A graph with a blank vertex has ports where the vertex has them that it is a copy of. -/
theorem hasPort_of_blank {g h : Graph ν} {d : Direction} {s t : Slot}
    (hoffset : t.offset = s.offset)
    (hr : Option.Rel Vertex.Blank (g.find? s.node) (h.find? t.node)) (hs : g.HasPort d s) :
    h.HasPort d t := by
  unfold HasPort port? at hs ⊢
  revert hr hs
  generalize g.find? s.node = v
  generalize h.find? t.node = w
  rintro (hvw | _) hs
  · rw [← Option.isSome_iff_exists, Option.bind_some] at hs ⊢
    rw [hvw.isSome_port?, hoffset]
    exact hs
  · exact hs

/-- The copies of the vertices of a graph, before they are connected. -/
def unlinkedClone (g : Graph ν) (id : GraphId) : Graph ν := ⟨id, (g.copyVertices id).val, g.next⟩

/-- A clone keeps the identifiers of the vertices. -/
theorem find?_unlinkedClone (g : Graph ν) (id : GraphId) (k : NodeId) :
    (g.unlinkedClone id).find? k = (g.find? k).map fun v => (joinedCopy id k v).val :=
  IdMap.get?_mapValues g.vertices (fun k v => (joinedCopy id k v).val) k

/-- The names under which the vertices of a graph are cloned: the old ones. -/
def ownNames (g : Graph ν) : Renaming := g.vertices.mapValues fun k _ => k

/-- A clone is what becomes of the copies of the vertices when they are connected. -/
theorem val_clone (g : Graph ν) (id : GraphId) :
    (g.clone id).val =
      ((g.unlinkedClone id).connectAll
        (g.inboundLinks.filterMap (renamedLink? g.ownNames))).val.1 := by
  unfold clone replicate unlinkedClone ownNames
  simp only [Journaled.val_bind]
  split <;> rfl

/-- A clone has vertices for the same identifiers. -/
theorem ids_clone [LawfulPorts φ ν] (g : Graph ν) (id : GraphId) :
    (g.clone id).val.ids = g.ids := by
  apply IdMap.keys_congr
  intro k
  have hcopy := congrArg Option.isSome (g.find?_unlinkedClone id k)
  rw [Option.isSome_map] at hcopy
  rw [val_clone]
  exact ((rewired_connectAll _ _).contains_eq k).trans hcopy

/-- No connections are copied with the vertices. -/
theorem peers_unlinkedClone [LawfulPorts φ ν] [PassiveVertex φ ν] (g : Graph ν) (id : GraphId)
    (d : Direction) (s : Slot) : (g.unlinkedClone id).peers d s = [] := by
  have hfind := g.find?_unlinkedClone id s.node
  cases hv : g.find? s.node with
  | none =>
    rw [hv] at hfind
    exact peers_eq_nil_of_find? hfind
  | some v =>
    rw [hv] at hfind
    rw [peers_eq_of_find? hfind]
    exact Vertex.peers_onJoin_clearLinks _ _ d s.offset

/-- The clone of any graph is consistent. -/
theorem consistent_clone [LawfulPorts φ ν] [PassiveVertex φ ν] (g : Graph ν) (id : GraphId) :
    (g.clone id).val.Consistent := by
  rw [val_clone]
  exact (consistent_of_peers_eq_nil (g.peers_unlinkedClone id)).connectAll _

/-- Links between stored vertices keep their names. -/
theorem filterMap_ownNames {g : Graph ν} (hg : g.Consistent) :
    g.inboundLinks.filterMap (renamedLink? g.ownNames) = g.inboundLinks := by
  have hself : ∀ l ∈ g.inboundLinks, renamedLink? g.ownNames l = some l := by
    intro l hl
    have hname (d : Direction) : g.ownNames.slot? (l.side d) = some (l.side d) := by
      obtain ⟨v, hv⟩ := (hasPort_of_mem_inboundLinks hg hl d).exists_find?
      have hget := IdMap.get?_mapValues g.vertices (fun k _ => k) (l.side d).node
      change g.ownNames.get? (l.side d).node = (g.find? (l.side d).node).map _ at hget
      rw [hv] at hget
      exact Renaming.slot?_of_get? hget
    rw [Renaming.renamedLink?_eq .incoming, hname, Direction.opposite, hname]
    rfl
  generalize g.inboundLinks = ls at hself
  induction ls with
  | nil => rfl
  | cons l rest ih =>
    rw [List.filterMap_cons, hself l (.head _), ih fun m hm => hself m (.tail _ hm)]

/-- Among the copies of the vertices of a consistent graph all of its connections can be made. -/
theorem connectAll_unlinkedClone [SteadyVertex φ ν] {g : Graph ν} (hg : g.Consistent)
    (id : GraphId) : ((g.unlinkedClone id).connectAll g.inboundLinks).val.2 = .ok () ∧
      ∀ d s, ((g.unlinkedClone id).connectAll g.inboundLinks).val.1.peers d s =
        Link.farEnds d s g.inboundLinks := by
  have hblank (k : NodeId) :
      Option.Rel Vertex.Blank (g.find? k) ((g.unlinkedClone id).find? k) := by
    rw [find?_unlinkedClone]
    cases g.find? k with
    | none => exact .none
    | some v => exact .some (Vertex.blank_onJoin_copy _ v)
  have hport : ∀ l ∈ g.inboundLinks, ∀ e, (g.unlinkedClone id).HasPort e (l.side e) := by
    intro l hl e
    exact hasPort_of_blank rfl (hblank _) (hasPort_of_mem_inboundLinks hg hl e)
  have hroom : φ = .multi ∨ ∀ e t,
      ((g.unlinkedClone id).peers e t ++ Link.farEnds e t g.inboundLinks).length ≤ 1 := by
    cases φ with
    | multi => exact .inl rfl
    | single =>
      apply Or.inr
      intro e t
      rw [peers_unlinkedClone, List.nil_append, (perm_farEnds_inboundLinks hg e t).length_eq]
      exact g.length_peers_le e t rfl
  obtain ⟨hok, hpeers⟩ := connectAll_spec hport hroom
  refine ⟨hok, fun d s => ?_⟩
  rw [hpeers, peers_unlinkedClone, List.nil_append]

/-- The clone of a consistent graph has all of its connections, in the order of the inputs. -/
theorem peers_clone [SteadyVertex φ ν] {g : Graph ν} (hg : g.Consistent) (id : GraphId)
    (d : Direction) (s : Slot) :
    (g.clone id).val.peers d s = Link.farEnds d s g.inboundLinks := by
  rw [val_clone, filterMap_ownNames hg, (connectAll_unlinkedClone hg id).2]

/-! ## Copies in another graph -/

/-- Copies of the listed vertices, to be told what they join. -/
def copies (es : List (NodeId × ν)) : List (Recruit ν) :=
  es.map fun e => (e.1, fun m => (joinedCopy m.graph m.id e.2).val)

/-- Copies are enrolled in a bounded graph. -/
theorem val_insertCopies {g : Graph ν} (hg : g.Bounded) (names : Renaming)
    (es : List (NodeId × ν)) :
    (g.insertCopies names es).val =
      ((g.enrol names (copies es)).1, .ok (g.enrol names (copies es)).2) := by
  induction es generalizing g names with
  | nil => rfl
  | cons e rest ih =>
    have hfirst : (g.insertCopies names (e :: rest)).val =
        ((g.store (joinedCopy g.id g.next e.2).val).insertCopies
          (names.insert e.1 g.next) rest).val := by
      rw [insertCopies]
      simp only [insertCopy, insert, Journaled.val_bind,
        adopt_of_not_contains hg.not_contains_next]
      rfl
    rw [hfirst, ih (hg.store _)]
    rfl

/-- Inserting copies keeps a graph consistent, whether or not one of them is refused. -/
theorem Consistent.insertCopies [LawfulPorts φ ν] [PassiveVertex φ ν] {g : Graph ν}
    (hg : g.Consistent) (names : Renaming) (es : List (NodeId × ν)) :
    (g.insertCopies names es).val.1.Consistent := by
  induction es generalizing g names with
  | nil => exact hg
  | cons e rest ih =>
    have hfirst := hg.insert (Vertex.copy e.2)
    rw [Graph.insertCopies, Journaled.val_bind, insertCopy]
    generalize (g.insert (Vertex.copy e.2)).val = made at hfirst
    obtain ⟨h, e | b⟩ := made
    · exact hfirst
    · exact ih hfirst _

/-- The copies of all vertices are enrolled in a bounded graph. -/
theorem enrolled_copies (source : Graph ν) {dest : Graph ν} (hdest : dest.Bounded) :
    ∃ h names, (dest.insertCopies .empty source.vertices.entries).val = (h, .ok names) ∧
      Enrolled dest (copies source.vertices.entries) h names := by
  have hascending : (copies source.vertices.entries).Pairwise fun e e' => e.1 < e'.1 :=
    List.pairwise_map.mpr source.vertices.ascending
  exact ⟨_, _, val_insertCopies hdest _ _, enrolled_enrol hdest hascending⟩

/-- Copying into a graph is inserting copies, and connecting them if none was refused. -/
theorem val_copyInto (source dest : Graph ν) :
    (source.copyInto dest).val.1 =
      match (dest.insertCopies .empty source.vertices.entries).val with
      | (h, .error _) => h
      | (h, .ok names) =>
        (h.connectAll (source.inboundLinks.filterMap (renamedLink? names))).val.1 := by
  unfold copyInto replicate
  simp only [Journaled.val_bind]
  generalize (dest.insertCopies .empty source.vertices.entries).val = made
  obtain ⟨h, e | names⟩ := made
  · rfl
  · simp only [Journaled.val_bind]
    split <;> rfl

/-- Copying comes to this where every vertex was taken in. -/
theorem val_copyInto_of_ok {source dest h : Graph ν} {names : Renaming}
    (hcopies : (dest.insertCopies .empty source.vertices.entries).val = (h, .ok names)) :
    (source.copyInto dest).val =
      match (h.connectAll (source.inboundLinks.filterMap (renamedLink? names))).val with
      | (f, .ok ()) => (f, .ok names)
      | (f, .error e) => (f, .error (.connect e)) := by
  unfold copyInto replicate
  simp only [Journaled.val_bind, hcopies]
  generalize (h.connectAll _).val = made
  obtain ⟨f, e | -⟩ := made <;> rfl

/-- Copying succeeds where, besides, every connection was made. -/
theorem val_copyInto_of_connected {source dest h : Graph ν} {names : Renaming}
    (hcopies : (dest.insertCopies .empty source.vertices.entries).val = (h, .ok names))
    (hlinks : (h.connectAll (source.inboundLinks.filterMap (renamedLink? names))).val.2 = .ok ()) :
    (source.copyInto dest).val =
      ((h.connectAll (source.inboundLinks.filterMap (renamedLink? names))).val.1, .ok names) := by
  rw [val_copyInto_of_ok hcopies]
  generalize (h.connectAll _).val = made at hlinks
  obtain ⟨f, answer⟩ := made
  cases hlinks
  rfl

/-- Copying any graph into a consistent one keeps it consistent. -/
theorem Consistent.copyInto [LawfulPorts φ ν] [PassiveVertex φ ν] {dest : Graph ν}
    (hdest : dest.Consistent) (source : Graph ν) : (source.copyInto dest).val.1.Consistent := by
  have hcopies := hdest.insertCopies .empty source.vertices.entries
  rw [val_copyInto]
  generalize (dest.insertCopies .empty source.vertices.entries).val = made at hcopies
  obtain ⟨h, e | names⟩ := made
  · exact hcopies
  · exact hcopies.connectAll _

/-! ### Copies of steady vertices -/

variable {source dest h : Graph ν} {names : Renaming}

/-- All vertices of the source receive names. -/
theorem Enrolled.exists_copy_iff (hen : Enrolled dest (copies source.vertices.entries) h names)
    (k : NodeId) : (∃ a, names.get? k = some a) ↔ source.contains k = true := by
  rw [hen.exists_get?_iff, contains_iff]
  constructor
  · rintro ⟨e, he, rfl⟩
    obtain ⟨x, hx, rfl⟩ := List.mem_map.mp he
    exact ⟨x.2, IdMap.get?_eq_some_iff.mpr hx⟩
  · rintro ⟨v, hv⟩
    exact ⟨_, List.mem_map_of_mem (IdMap.get?_eq_some_iff.mp hv), rfl⟩

/-- Under the new name of a vertex its copy is stored. -/
theorem Enrolled.find?_copy (hen : Enrolled dest (copies source.vertices.entries) h names)
    {k a : NodeId} {v : ν} (hk : names.get? k = some a) (hv : source.find? k = some v) :
    h.find? a = some (joinedCopy dest.id a v).val := by
  obtain ⟨b, hb, hfind⟩ := hen.stored (List.mem_map_of_mem (IdMap.get?_eq_some_iff.mp hv))
  have hab : b = a := Option.some.inj (hb.symm.trans hk)
  rwa [hab] at hfind

/-- Taking in copies changes no list of opposites. -/
theorem Enrolled.peers_copies [LawfulPorts φ ν] [PassiveVertex φ ν]
    (hen : Enrolled dest (copies source.vertices.entries) h names) (hdest : dest.Bounded)
    (d : Direction) (t : Slot) : h.peers d t = dest.peers d t := by
  by_cases hnamed : ∃ k, names.get? k = some t.node
  · obtain ⟨k, hk⟩ := hnamed
    obtain ⟨v, hv⟩ := contains_iff.mp ((hen.exists_copy_iff k).mp ⟨_, hk⟩)
    rw [peers_eq_of_find? (hen.find?_copy hk hv),
      peers_eq_nil_of_find? (hen.find?_dest_eq_none hdest hk)]
    exact Vertex.peers_onJoin_clearLinks _ _ d t.offset
  · exact peers_congr (port?_congr (hen.kept fun k hk => hnamed ⟨k, hk⟩))

/-- The copy of a port is a port. -/
theorem Enrolled.hasPort_copy [SteadyVertex φ ν]
    (hen : Enrolled dest (copies source.vertices.entries) h names) {s t : Slot}
    (hs : names.slot? s = some t) {d : Direction} (hport : source.HasPort d s) :
    h.HasPort d t := by
  obtain ⟨hk, hoffset⟩ := Renaming.slot?_eq_some_iff.mp hs
  obtain ⟨v, hv⟩ := hport.exists_find?
  refine hasPort_of_blank hoffset ?_ hport
  rw [hv, hen.find?_copy hk hv]
  exact .some (Vertex.blank_onJoin_copy _ v)

/-- The links of the source have copies of their ends. -/
theorem Enrolled.hasPort_renamed [SteadyVertex φ ν]
    (hen : Enrolled dest (copies source.vertices.entries) h names) (hg : source.Consistent) :
    ∀ l ∈ source.inboundLinks.filterMap (renamedLink? names), ∀ d, h.HasPort d (l.side d) := by
  intro l hl d
  obtain ⟨m, hm, hml⟩ := List.mem_filterMap.mp hl
  exact hen.hasPort_copy (Renaming.slot?_side hml d) (hasPort_of_mem_inboundLinks hg hm d)

/-- There is room for them, as there was in the source. -/
theorem Enrolled.room_for_renamed [LawfulPorts φ ν] [PassiveVertex φ ν]
    (hen : Enrolled dest (copies source.vertices.entries) h names) (hg : source.Consistent)
    (hdest : dest.Bounded) :
    φ = .multi ∨ ∀ d t, (h.peers d t ++
      Link.farEnds d t (source.inboundLinks.filterMap (renamedLink? names))).length ≤ 1 := by
  cases φ with
  | multi => exact .inl rfl
  | single =>
    apply Or.inr
    intro d t
    rw [hen.peers_copies hdest]
    by_cases hnamed : ∃ k, names.get? k = some t.node
    · obtain ⟨k, hk⟩ := hnamed
      have hlen := List.length_filterMap_le names.slot?
        (Link.farEnds d ⟨k, t.offset⟩ source.inboundLinks)
      rw [(perm_farEnds_inboundLinks hg d _).length_eq] at hlen
      rw [hen.farEnds_renamed hdest (Renaming.slot?_of_get? hk)]
      exact Nat.le_trans hlen (source.length_peers_le d _ rfl)
    · rw [Renaming.farEnds_filterMap_eq_nil (fun k hk => hnamed ⟨k, hk⟩), List.append_nil]
      exact dest.length_peers_le d t rfl

/-- The copies of the vertices of a consistent graph have all of its connections, in the order of
the inputs. -/
theorem copyInto_eq [SteadyVertex φ ν] (hg : source.Consistent) (hdest : dest.Bounded) :
    ∃ h names, Enrolled dest (copies source.vertices.entries) h names ∧
      (source.copyInto dest).val.2 = .ok names ∧ Rewired h (source.copyInto dest).val.1 ∧
      ∀ d t, (source.copyInto dest).val.1.peers d t = dest.peers d t ++
        Link.farEnds d t (source.inboundLinks.filterMap (renamedLink? names)) := by
  obtain ⟨h, names, hval, hen⟩ := source.enrolled_copies hdest
  obtain ⟨hok, hpeers⟩ := connectAll_spec (hen.hasPort_renamed hg) (hen.room_for_renamed hg hdest)
  rw [val_copyInto_of_connected hval hok]
  refine ⟨h, names, hen, rfl, rewired_connectAll _ _, fun d t => ?_⟩
  rw [hpeers, hen.peers_copies hdest]

end Graph

end PortGraph
