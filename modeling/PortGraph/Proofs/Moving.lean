import PortGraph.Graph.Transfer
import PortGraph.Proofs.Enrolling

/-!
# Moving vertices

Vertices are carried from one graph to another with the connections that they record, and these are
renamed afterwards. A vertex that was carried over left its graph and joined the other one, and may
have shed connections at either occasion. A port that retained its list then lists, under its new
name, the new names of what it listed before, and one that did not lists nothing
(`Enrolled.peers_relink_of_retains`, `Enrolled.peers_relink_of_not_retains`). Nothing else changes
in the other graph.

Nobody tells the far end when a port loses its list. So the other graph is consistent if both ends
of each connection fare alike (`Enrolled.consistent_relink`), as they do where vertices keep their
ports.
-/

namespace PortGraph

/-- What becomes of a vertex that leaves its graph and joins another one. -/
def Vertex.rejoin {φ : Flavour} {ν : Type} [Vertex φ ν] (m : Membership) (v : ν) : ν :=
  (onJoin (some m) (onLeave v).val).val

/-! ## Orders of identifiers -/

instance : Std.IsLinearOrder NodeId where
  le_refl a := Nat.le_refl a.val
  le_trans _ _ _ := Nat.le_trans
  le_antisymm _ _ h h' := NodeId.ext (Nat.le_antisymm h h')
  le_total a b := Nat.le_total a.val b.val

instance : Std.LawfulOrderMin NodeId where
  le_min_iff a b c := by
    change a ≤ (if b ≤ c then b else c) ↔ _
    simp only [NodeId.le_def]
    split <;> omega
  min_eq_or a b := by
    change (if a ≤ b then a else b) = _ ∨ (if a ≤ b then a else b) = _
    split
    · exact .inl rfl
    · exact .inr rfl

/-- The keys of a map are in ascending order. -/
theorem IdMap.pairwise_keys {α : Type} (m : IdMap α) : m.keys.Pairwise (· < ·) :=
  List.pairwise_map.mpr m.ascending

/-- So they are different. -/
theorem IdMap.nodup_keys {α : Type} (m : IdMap α) : m.keys.Nodup := by
  refine m.pairwise_keys.imp fun hlt heq => ?_
  rw [heq] at hlt
  exact NodeId.lt_irrefl _ hlt

/-- The new names of an injective renaming are different. -/
theorem Renaming.Injective.nodup_values {names : Renaming} (hinj : names.Injective) :
    names.values.Nodup := by
  refine List.pairwise_map.mpr ?_
  apply names.ascending.imp_of_mem
  intro x y hx hy hlt heq
  have hxget := IdMap.get?_eq_some_iff.mpr hx
  have hyget := IdMap.get?_eq_some_iff.mpr hy
  rw [← heq] at hyget
  have hkey : x.1 = y.1 := hinj hxget hyget
  rw [hkey] at hlt
  exact NodeId.lt_irrefl _ hlt

namespace Graph

variable {φ : Flavour} {ν : Type} [Vertex φ ν]

/-! ## Carrying -/

/-- The graph without some of its vertices; connections are left as they are. -/
def without (g : Graph ν) (ids : List NodeId) : Graph ν :=
  { g with vertices := g.vertices.filter fun k _ => !ids.contains k }

omit [Vertex φ ν] in
theorem find?_without (g : Graph ν) (ids : List NodeId) (k : NodeId) :
    (g.without ids).find? k = if ids.contains k = true then none else g.find? k := by
  have hfilter := IdMap.get?_filter g.vertices (fun k _ => !ids.contains k) k
  change (g.without ids).find? k = Option.filter _ (g.find? k) at hfilter
  rw [hfilter]
  cases hv : g.find? k with
  | none => simp
  | some v => cases hk : ids.contains k <;> simp [Option.filter]

omit [Vertex φ ν] in
/-- Graphs are equal if they agree in their vertices and in what else there is. -/
theorem ext_find? {g h : Graph ν} (hid : g.id = h.id) (hnext : g.next = h.next)
    (hfind : ∀ k, g.find? k = h.find? k) : g = h := by
  obtain ⟨i, m, n⟩ := g
  obtain ⟨i', m', n'⟩ := h
  have hvertices : m = m' := IdMap.ext hfind
  cases hid
  cases hnext
  rw [hvertices]

/-- The listed vertices that are stored, each of them to leave its graph and join another one. -/
def movers (g : Graph ν) (ids : List NodeId) : List (Recruit ν) :=
  ids.filterMap fun k => (g.find? k).map fun v => (k, fun m => Vertex.rejoin m v)

theorem mem_movers_iff {g : Graph ν} {ids : List NodeId} {e : Recruit ν} :
    e ∈ g.movers ids ↔
      ∃ k ∈ ids, ∃ v, g.find? k = some v ∧ (k, fun m => Vertex.rejoin m v) = e := by
  unfold movers
  simp only [List.mem_filterMap, Option.map_eq_some_iff]

/-- Vertices are taken along in the order in which they are listed. -/
theorem pairwise_movers (g : Graph ν) {ids : List NodeId} (hids : ids.Pairwise (· < ·)) :
    (g.movers ids).Pairwise fun e e' => e.1 < e'.1 := by
  refine List.Pairwise.filterMap _ (fun k k' hlt e he e' he' => ?_) hids
  obtain ⟨v, _, rfl⟩ := Option.map_eq_some_iff.mp he
  obtain ⟨v', _, rfl⟩ := Option.map_eq_some_iff.mp he'
  exact hlt

theorem movers_cons_of_none {g : Graph ν} {id : NodeId} (hv : g.find? id = none)
    (rest : List NodeId) : g.movers (id :: rest) = g.movers rest := by
  rw [movers, List.filterMap_cons, hv]
  rfl

theorem movers_cons_of_find? {g : Graph ν} {id : NodeId} {v : ν} (hv : g.find? id = some v)
    (rest : List NodeId) :
    g.movers (id :: rest) = (id, fun m => Vertex.rejoin m v) :: g.movers rest := by
  rw [movers, List.filterMap_cons, hv]
  rfl

/-- Vertices that are all stored are all taken along. -/
theorem map_fst_movers {g : Graph ν} {ids : List NodeId} (hids : ∀ k ∈ ids, g.contains k = true) :
    (g.movers ids).map Prod.fst = ids := by
  induction ids with
  | nil => rfl
  | cons k rest ih =>
    obtain ⟨v, hv⟩ := contains_iff.mp (hids k (.head _))
    rw [movers_cons_of_find? hv, List.map_cons, ih fun j hj => hids j (.tail _ hj)]

omit [Vertex φ ν] in
theorem without_cons_of_none {g : Graph ν} {id : NodeId} (hv : g.find? id = none)
    (rest : List NodeId) : g.without (id :: rest) = g.without rest := by
  refine ext_find? rfl rfl fun k => ?_
  rw [find?_without, find?_without]
  by_cases hk : k = id <;> simp [hk, hv]

omit [Vertex φ ν] in
/-- A vertex may be taken out before the others. -/
theorem without_drop (g : Graph ν) (id : NodeId) (rest : List NodeId) :
    ({ g with vertices := g.vertices.erase id } : Graph ν).without rest =
      g.without (id :: rest) := by
  refine ext_find? rfl rfl fun k => ?_
  rw [find?_without, find?_without, find?_drop]
  by_cases hk : k = id <;> simp [hk]

/-- The others are not changed by that. -/
theorem movers_drop (g : Graph ν) {id : NodeId} {rest : List NodeId} (hid : id ∉ rest) :
    ({ g with vertices := g.vertices.erase id } : Graph ν).movers rest = g.movers rest := by
  refine List.filterMap_congr fun k hk => ?_
  have hne : k ≠ id := by
    rintro rfl
    exact hid hk
  rw [find?_drop, if_neg hne]

/-- The listed vertices leave the source, and are enrolled in a bounded graph. -/
theorem val_carry (source : Graph ν) {dest : Graph ν} (hdest : dest.Bounded) (names : Renaming)
    {ids : List NodeId} (hids : ids.Nodup) :
    (source.carry dest names ids).val =
      ⟨source.without ids, (dest.enrol names (source.movers ids)).1,
        .ok (dest.enrol names (source.movers ids)).2⟩ := by
  induction ids generalizing source dest names with
  | nil =>
    have hsource : source.without [] = source :=
      ext_find? rfl rfl fun k => by simp [find?_without]
    rw [hsource]
    rfl
  | cons id rest ih =>
    obtain ⟨hid, hrest⟩ := List.nodup_cons.mp hids
    cases hv : source.find? id with
    | none =>
      have hcarry : (source.carry dest names (id :: rest)).val =
          (source.carry dest names rest).val := by
        rw [carry]
        simp only [unbind, hv, Journaled.val_bind, Journaled.val_pure]
      rw [hcarry, ih _ hdest names hrest, without_cons_of_none hv, movers_cons_of_none hv]
    | some v =>
      let left : Graph ν := { source with vertices := source.vertices.erase id }
      have hcarry : (source.carry dest names (id :: rest)).val =
          (left.carry (dest.store (Vertex.rejoin ⟨dest.id, dest.next⟩ v))
            (names.insert id dest.next) rest).val := by
        rw [carry]
        simp only [unbind, hv, Journaled.val_bind, Journaled.val_pure,
          adopt_of_not_contains hdest.not_contains_next]
        rfl
      rw [hcarry, ih _ (hdest.store _) _ hrest, without_drop, movers_drop _ hid,
        movers_cons_of_find? hv]
      rfl

/-- The listed vertices that are stored receive names. -/
theorem Enrolled.exists_name_iff {source dest h : Graph ν} {ids : List NodeId} {names : Renaming}
    (hen : Enrolled dest (source.movers ids) h names) (k : NodeId) :
    (∃ a, names.get? k = some a) ↔ k ∈ ids ∧ source.contains k = true := by
  rw [hen.exists_get?_iff, contains_iff]
  constructor
  · rintro ⟨e, he, rfl⟩
    obtain ⟨k, hk, v, hv, rfl⟩ := mem_movers_iff.mp he
    exact ⟨hk, v, hv⟩
  · rintro ⟨hk, v, hv⟩
    exact ⟨_, mem_movers_iff.mpr ⟨k, hk, v, hv, rfl⟩, rfl⟩

/-! ## Relinking -/

omit [Vertex φ ν] in
/-- Changing different vertices one after the other changes each of them once. -/
theorem find?_foldl_adjust {ν : Type} (f : ν → ν) {ids : List NodeId} (hids : ids.Nodup)
    (g : Graph ν) (k : NodeId) :
    (ids.foldl (fun g id => g.adjust id f) g).find? k =
      if k ∈ ids then (g.find? k).map f else g.find? k := by
  induction ids generalizing g with
  | nil => simp
  | cons id rest ih =>
    obtain ⟨hid, hrest⟩ := List.nodup_cons.mp hids
    rw [List.foldl_cons, ih hrest, find?_adjust]
    by_cases hk : k = id
    · simp [hk, hid]
    · simp [hk]

/-- The vertices after the new names were brought into the lists of those that were carried over. -/
theorem find?_relink {names : Renaming} (hinj : names.Injective) (g : Graph ν) (a : NodeId) :
    (g.relink names).find? a =
      if a ∈ names.values then (g.find? a).map (Vertex.renameLinks names.get?) else g.find? a :=
  find?_foldl_adjust _ hinj.nodup_values g a

/-- A vertex that was carried over left its graph and joined the other one, and what it lists was
renamed. -/
theorem Enrolled.find?_relink {source dest h : Graph ν} {ids : List NodeId} {names : Renaming}
    (hen : Enrolled dest (source.movers ids) h names) {k a : NodeId} (hk : names.get? k = some a)
    {v : ν} (hv : source.find? k = some v) :
    (h.relink names).find? a =
      some (Vertex.renameLinks names.get? (Vertex.rejoin ⟨dest.id, a⟩ v)) := by
  have hids : k ∈ ids := ((hen.exists_name_iff k).mp ⟨a, hk⟩).1
  obtain ⟨b, hb, hfind⟩ := hen.stored (mem_movers_iff.mpr ⟨k, hids, v, hv, rfl⟩)
  have hab : b = a := Option.some.inj (hb.symm.trans hk)
  subst hab
  rw [Graph.find?_relink hen.injective, if_pos (IdMap.mem_values_iff.mpr ⟨k, hk⟩), hfind]
  rfl

/-- All other vertices are left alone. -/
theorem Enrolled.find?_relink_of_not_named {dest h : Graph ν} {es : List (Recruit ν)}
    {names : Renaming} (hen : Enrolled dest es h names) {a : NodeId}
    (ha : ∀ k, names.get? k ≠ some a) : (h.relink names).find? a = dest.find? a := by
  have hmem : a ∉ names.values := fun hmem => by
    obtain ⟨k, hk⟩ := IdMap.mem_values_iff.mp hmem
    exact ha k hk
  rw [Graph.find?_relink hen.injective, if_neg hmem, hen.kept ha]

variable [LawfulPorts φ ν]

/-- Relinking is a rewiring. -/
theorem rewired_relink (g : Graph ν) (names : Renaming) : Rewired g (g.relink names) := by
  unfold relink
  induction names.values generalizing g with
  | nil => exact .refl g
  | cons a rest ih =>
    have hrename (p : Port φ) : (p.rename names.get?).offset = p.offset := rfl
    have hfirst := g.rewired_adjust a (Vertex.rewired_mapPorts hrename)
    exact hfirst.trans (ih _)

/-! ## What is listed after relinking -/

/-- The port at `s` still lists what it did, after its vertex left `g` and joined graph `id` under
its new name. -/
def Retains (g : Graph ν) (names : Renaming) (id : GraphId) (d : Direction) (s : Slot) : Prop :=
  ∀ ⦃v a⦄, g.find? s.node = some v → names.get? s.node = some a →
    Vertex.peers d s.offset (Vertex.rejoin ⟨id, a⟩ v) = Vertex.peers d s.offset v

omit [LawfulPorts φ ν] in
/-- Vertices that keep their ports retain all lists. -/
theorem retains_of_steady [SteadyVertex φ ν] (g : Graph ν) (names : Renaming) (id : GraphId)
    (d : Direction) (s : Slot) : g.Retains names id d s := by
  intro v a _ _
  apply Vertex.peers_of_ports_eq
  unfold Vertex.rejoin
  rw [SteadyVertex.ports_onJoin, SteadyVertex.ports_onLeave]

/-- Of every connection both ends retain their lists, or none does. -/
def Balanced (g : Graph ν) (names : Renaming) (id : GraphId) : Prop :=
  ∀ l, 0 < g.multiplicity l →
    (g.Retains names id .outgoing l.output ↔ g.Retains names id .incoming l.input)

omit [LawfulPorts φ ν] in
theorem balanced_of_steady [SteadyVertex φ ν] (g : Graph ν) (names : Renaming) (id : GraphId) :
    g.Balanced names id :=
  fun _ _ => iff_of_true (g.retains_of_steady names id _ _) (g.retains_of_steady names id _ _)

namespace Enrolled

variable {source dest h : Graph ν} {ids : List NodeId} {names : Renaming}

omit [LawfulPorts φ ν] in
/-- A vertex with a new name was stored in the source. -/
theorem exists_find?_of_get? (hen : Enrolled dest (source.movers ids) h names) {k a : NodeId}
    (hk : names.get? k = some a) : ∃ v, source.find? k = some v :=
  contains_iff.mp ((hen.exists_name_iff k).mp ⟨a, hk⟩).2

omit [LawfulPorts φ ν] in
/-- All other ports list what they listed. -/
theorem peers_relink_of_not_named {es : List (Recruit ν)} (hen : Enrolled dest es h names)
    {t : Slot} (ht : ∀ k, names.get? k ≠ some t.node) (d : Direction) :
    (h.relink names).peers d t = dest.peers d t :=
  peers_congr (port?_congr (hen.find?_relink_of_not_named ht))

/-- A port that retains its list lists the new names of what it listed before. -/
theorem peers_relink_of_retains (hen : Enrolled dest (source.movers ids) h names) {s t : Slot}
    (hs : names.slot? s = some t) {d : Direction} (hretains : source.Retains names dest.id d s) :
    (h.relink names).peers d t = (source.peers d s).filterMap names.slot? := by
  obtain ⟨hk, hoffset⟩ := Renaming.slot?_eq_some_iff.mp hs
  obtain ⟨v, hv⟩ := hen.exists_find?_of_get? hk
  rw [peers_eq_of_find? (hen.find?_relink hk hv), peers_eq_of_find? hv, Vertex.peers_renameLinks,
    hoffset, hretains hv hk]

variable [SheddingVertex φ ν]

/-- A port that does not retain its list lists nothing. -/
theorem peers_relink_of_not_retains (hen : Enrolled dest (source.movers ids) h names) {s t : Slot}
    (hs : names.slot? s = some t) {d : Direction} (hnot : ¬source.Retains names dest.id d s) :
    (h.relink names).peers d t = [] := by
  obtain ⟨hk, hoffset⟩ := Renaming.slot?_eq_some_iff.mp hs
  obtain ⟨v, hv⟩ := hen.exists_find?_of_get? hk
  have hsheds : Sheds v (Vertex.rejoin ⟨dest.id, t.node⟩ v) :=
    (SheddingVertex.sheds_onLeave v).trans (SheddingVertex.sheds_onJoin _ _)
  rw [peers_eq_of_find? (hen.find?_relink hk hv), Vertex.peers_renameLinks, hoffset]
  rcases Vertex.peers_of_sheds hsheds d s.offset with hsame | hnil
  · refine absurd ?_ hnot
    intro w a hw ha
    rw [hv] at hw
    rw [hk] at ha
    cases hw
    cases ha
    exact hsame
  · rw [hnil]
    rfl

/-- At a port that does not retain its list nothing is counted, at one that does what was before. -/
theorem count_relink (hen : Enrolled dest (source.movers ids) h names) {s t x u : Slot}
    (hs : names.slot? s = some t) (hx : names.slot? x = some u) (d : Direction) :
    source.Retains names dest.id d s ∧
        ((h.relink names).peers d t).count u = (source.peers d s).count x ∨
      ¬source.Retains names dest.id d s ∧ ((h.relink names).peers d t).count u = 0 := by
  by_cases hretains : source.Retains names dest.id d s
  · rw [hen.peers_relink_of_retains hs hretains, hen.injective.count_filterMap hx]
    exact .inl ⟨hretains, rfl⟩
  · rw [hen.peers_relink_of_not_retains hs hretains]
    exact .inr ⟨hretains, List.count_nil⟩

/-- New names and others do not list each other. -/
theorem count_relink_of_not_named (hen : Enrolled dest (source.movers ids) h names)
    (hdest : dest.Consistent) (hbound : dest.Bounded) {s t u : Slot} (hs : names.slot? s = some t)
    (hu : ∀ k, names.get? k ≠ some u.node) (d : Direction) :
    ((h.relink names).peers d t).count u = 0 ∧ ((h.relink names).peers d u).count t = 0 := by
  constructor
  · by_cases hretains : source.Retains names dest.id d s
    · rw [hen.peers_relink_of_retains hs hretains, Renaming.count_filterMap_eq_zero hu]
    · rw [hen.peers_relink_of_not_retains hs hretains, List.count_nil]
  · -- a new name was listed nowhere
    have hnone := hen.find?_dest_eq_none hbound (Renaming.slot?_eq_some_iff.mp hs).1
    rw [hen.peers_relink_of_not_named hu, hdest.count_comm, peers_eq_nil_of_find? hnone,
      List.count_nil]

/-- If the other graph is consistent, then of a connection that was taken along with both ends each
end retains its list if the other does. -/
theorem retains_opposite (hen : Enrolled dest (source.movers ids) h names)
    (hsource : source.Consistent) (hconsistent : (h.relink names).Consistent) {l : Link}
    (hl : 0 < source.multiplicity l) {d : Direction} {a : NodeId}
    (ha : names.get? (l.side d).node = some a)
    (hretains : source.Retains names dest.id d (l.side d)) :
    source.Retains names dest.id d.opposite (l.side d.opposite) := by
  intro w b hw hb
  by_contra hne
  have hnot : ¬source.Retains names dest.id d.opposite (l.side d.opposite) := fun h => hne (h hw hb)
  have hs : names.slot? (l.side d) = some ⟨a, (l.side d).offset⟩ :=
    Renaming.slot?_eq_some_iff.mpr ⟨ha, rfl⟩
  have hx : names.slot? (l.side d.opposite) = some ⟨b, (l.side d.opposite).offset⟩ :=
    Renaming.slot?_eq_some_iff.mpr ⟨hb, rfl⟩
  -- one end still counts the connection, the other counts none
  have hends := hconsistent.count_comm d ⟨a, (l.side d).offset⟩ ⟨b, (l.side d.opposite).offset⟩
  rw [hen.peers_relink_of_retains hs hretains, hen.peers_relink_of_not_retains hx hnot,
    hen.injective.count_filterMap hx, hsource.count_peers, Link.between_side, List.count_nil]
    at hends
  omega

/-- Two ports that were carried over agree if they both retain their lists, or neither does. -/
theorem count_relink_comm (hen : Enrolled dest (source.movers ids) h names)
    (hsource : source.Consistent) {s t x u : Slot} (hs : names.slot? s = some t)
    (hx : names.slot? x = some u) {d : Direction}
    (hagree : 0 < source.multiplicity (.between d s x) →
      (source.Retains names dest.id d s ↔ source.Retains names dest.id d.opposite x)) :
    ((h.relink names).peers d t).count u = ((h.relink names).peers d.opposite u).count t := by
  have hbefore := hsource.count_peers d s x
  have hbefore' := hsource.count_comm d s x
  rcases hen.count_relink hs hx d with ⟨hr, hc⟩ | ⟨hr, hc⟩ <;>
    rcases hen.count_relink hx hs d.opposite with ⟨hr', hc'⟩ | ⟨hr', hc'⟩
  · omega
  · have hzero : ¬0 < source.multiplicity (.between d s x) := fun hl => hr' ((hagree hl).mp hr)
    omega
  · have hzero : ¬0 < source.multiplicity (.between d s x) := fun hl => hr ((hagree hl).mpr hr')
    omega
  · omega

/-- The other graph is consistent if of every connection both ends fare alike. -/
theorem consistent_relink (hen : Enrolled dest (source.movers ids) h names)
    (hsource : source.Consistent) (hdest : dest.Consistent) (hbound : dest.Bounded)
    (hbalanced : source.Balanced names dest.id) : (h.relink names).Consistent := by
  -- each port is one that was carried over, or one that there was
  have hcases (t : Slot) :
      (∃ s, names.slot? s = some t) ∨ ∀ k, names.get? k ≠ some t.node := by
    by_cases hnamed : ∃ k, names.get? k = some t.node
    · obtain ⟨k, hk⟩ := hnamed
      exact .inl ⟨_, Renaming.slot?_of_get? hk⟩
    · exact .inr fun k hk => hnamed ⟨k, hk⟩
  apply consistent_iff.mpr
  intro d t u
  rcases hcases t with ⟨s, hs⟩ | ht
  · rcases hcases u with ⟨x, hx⟩ | hu
    · refine hen.count_relink_comm hsource hs hx fun hl => ?_
      have hsides := hbalanced _ hl
      cases d with
      | incoming => exact hsides.symm
      | outgoing => exact hsides
    · rw [(hen.count_relink_of_not_named hdest hbound hs hu d).1,
        (hen.count_relink_of_not_named hdest hbound hs hu d.opposite).2]
  · rcases hcases u with ⟨x, hx⟩ | hu
    · rw [(hen.count_relink_of_not_named hdest hbound hx ht d).2,
        (hen.count_relink_of_not_named hdest hbound hx ht d.opposite).1]
    · rw [hen.peers_relink_of_not_named ht, hen.peers_relink_of_not_named hu]
      exact hdest.count_comm d t u

end Enrolled

end Graph

end PortGraph
