import Mathlib.Data.List.Perm.Subperm
import PortGraph.Proofs.Connecting
import PortGraph.Proofs.Settling

/-!
# Revising a vertex

A function may do to a vertex whatever it likes. What the graph makes of the result is decided by
counting: of every link of the vertex as many are left as there were before and as the revised
vertex still records, a loop at both of its ends (`count_settlement`).

The repair puts the revised vertex in its place without connections (`seated`), records the links
that are kept at its ports, and removes the others at their far ends. `Repaired` says what comes of
this, in terms of the links that are kept and lost.
-/

namespace PortGraph

namespace Graph

variable {φ : Flavour} {ν ρ : Type} [Vertex φ ν]

/-! ## What is kept and what is lost -/

/-- How often vertex `u` records a link as vertex `id`; a loop counts as often as it is recorded at
both ends. -/
def recorded (id : NodeId) (u : ν) (l : Link) : Nat :=
  if l.input.node = id then
    if l.output.node = id then
      min ((Vertex.links .incoming id u).count l) ((Vertex.links .outgoing id u).count l)
    else (Vertex.links .incoming id u).count l
  else (Vertex.links .outgoing id u).count l

/-- At each end that is a port of the vertex, a link is recorded at least as often as it counts. -/
theorem recorded_le {id : NodeId} {l : Link} {d : Direction} (hd : (l.side d).node = id) (u : ν) :
    recorded id u l ≤ (Vertex.links d id u).count l := by
  unfold recorded
  cases d with
  | incoming =>
    have hin : l.input.node = id := hd
    rw [if_pos hin]
    split
    · exact Nat.min_le_left _ _
    · exact Nat.le_refl _
  | outgoing =>
    have hout : l.output.node = id := hd
    rw [if_pos hout]
    split
    · exact Nat.min_le_right _ _
    · exact Nat.le_refl _

/-- A vertex of a consistent graph records each link at its ports as often as there is one. -/
theorem count_links_eq_multiplicity {g : Graph ν} (hg : g.Consistent) {id : NodeId} {v : ν}
    (hv : g.find? id = some v) (d : Direction) (l : Link) :
    (Vertex.links d id v).count l = if (l.side d).node = id then g.multiplicity l else 0 := by
  rw [count_links hv, hg.count_peers, Link.between_side]

/-- The links of vertex `v` from before a revision, settled against those of the revised vertex
`u`. -/
def settlement (id : NodeId) (v u : ν) : Settlement :=
  settle id (Vertex.links .incoming id v) (Vertex.links .outgoing id v)
    (Vertex.links .incoming id u) (Vertex.links .outgoing id u)

/-- Of every link at the vertex as many are kept as there were and are recorded now; the others are
lost. -/
theorem count_settlement {g : Graph ν} (hg : g.Consistent) {id : NodeId} {v : ν}
    (hv : g.find? id = some v) (u : ν) {l : Link} (hl : l.touches id = true) :
    (settlement id v u).kept.count l = min (g.multiplicity l) (recorded id u l) ∧
      (settlement id v u).kept.count l + (settlement id v u).lost.count l = g.multiplicity l := by
  have hin : (Vertex.links .incoming id v).count l =
      if l.input.node = id then g.multiplicity l else 0 :=
    count_links_eq_multiplicity hg hv .incoming l
  have hout : (Vertex.links .outgoing id v).count l =
      if l.output.node = id then g.multiplicity l else 0 :=
    count_links_eq_multiplicity hg hv .outgoing l
  unfold settlement recorded
  by_cases hnode : l.input.node = id
  · rw [if_pos hnode] at hin ⊢
    rw [← hin]
    exact count_settle_of_input hnode _ _ _ _
  · have hnode' : l.output.node = id := ((Link.touches_iff .incoming).mp hl).resolve_left hnode
    rw [if_neg hnode] at hin ⊢
    rw [if_pos hnode'] at hout
    rw [← hout]
    exact count_settle_of_not_input hnode hin _ _ _

/-- Links elsewhere are neither kept nor lost. -/
theorem touches_of_mem_settlement {g : Graph ν} (hg : g.Consistent) {id : NodeId} {v : ν}
    (hv : g.find? id = some v) (u : ν) {l : Link}
    (hl : l ∈ (settlement id v u).kept ∨ l ∈ (settlement id v u).lost) : l.touches id = true := by
  have hin : (Vertex.links .incoming id v).count l =
      if l.input.node = id then g.multiplicity l else 0 :=
    count_links_eq_multiplicity hg hv .incoming l
  have hout : (Vertex.links .outgoing id v).count l =
      if l.output.node = id then g.multiplicity l else 0 :=
    count_links_eq_multiplicity hg hv .outgoing l
  refine (Link.touches_iff .incoming).mpr ?_
  by_cases hnode : l.input.node = id
  · exact .inl hnode
  · by_cases hnode' : l.output.node = id
    · exact .inr hnode'
    · rw [if_neg hnode] at hin
      rw [if_neg hnode'] at hout
      obtain ⟨_, htotal⟩ := count_settle_of_not_input hnode hin (Vertex.links .outgoing id v)
        (Vertex.links .incoming id u) (Vertex.links .outgoing id u)
      unfold settlement at hl
      rw [← List.count_pos_iff, ← List.count_pos_iff] at hl
      omega

/-! ## Restoring what is kept -/

/-- Records a link at one of its ends, if that is a port of vertex `id`. -/
def restoreEnd (id : NodeId) (d : Direction) (g : Graph ν) (l : Link) : Graph ν :=
  if (l.side d).node = id then g.adjustPort d (l.side d) (·.link (l.side d.opposite)) else g

/-- A link is restored at its input first. -/
theorem restore_eq (id : NodeId) (g : Graph ν) (l : Link) :
    restore id g l = restoreEnd id .outgoing (restoreEnd id .incoming g l) l := rfl

/-- Restoring a link changes no other vertex. -/
theorem find?_restore {id k : NodeId} (hk : k ≠ id) (g : Graph ν) (l : Link) :
    (restore id g l).find? k = g.find? k := by
  have hend (d : Direction) (f : Graph ν) : (restoreEnd id d f l).find? k = f.find? k := by
    unfold restoreEnd
    split
    · next hnode =>
      rw [adjustPort, find?_adjust, if_neg]
      rw [hnode]
      exact hk
    · rfl
  rw [restore_eq, hend, hend]

/-- Restoring any number of links changes no other vertex. -/
theorem find?_foldl_restore {id k : NodeId} (hk : k ≠ id) (g : Graph ν) (ls : List Link) :
    (ls.foldl (restore id) g).find? k = g.find? k := by
  induction ls generalizing g with
  | nil => rfl
  | cons l rest ih => rw [List.foldl_cons, ih, find?_restore hk]

variable [LawfulPorts φ ν]

theorem rewired_restoreEnd (id : NodeId) (d : Direction) (g : Graph ν) (l : Link) :
    Rewired g (restoreEnd id d g l) := by
  unfold restoreEnd
  split
  · exact g.rewired_adjustPort d _ fun p => p.offset_link _
  · exact .refl g

/-- Restoring one end of a link adds the other end to the list of its port. -/
theorem peers_restoreEnd {g : Graph ν} {id : NodeId} {d : Direction} {l : Link}
    (hl : (l.side d).node = id → g.HasPort d (l.side d) ∧ (φ = .multi ∨ g.peers d (l.side d) = []))
    (e : Direction) (s : Slot) :
    (restoreEnd id d g l).peers e s =
      if e = d ∧ s.node = id then g.peers e s ++ Link.farEnds e s [l] else g.peers e s := by
  unfold restoreEnd
  by_cases hnode : (l.side d).node = id
  · obtain ⟨hport, hroom⟩ := hl hnode
    rw [if_pos hnode, peers_adjustPort_link _ _ _ _ _ _ hport hroom, Link.farEnds_cons,
      Link.farEnds_nil]
    by_cases he : e = d
    · subst he
      by_cases hs : s = l.side e
      · rw [hs]
        simp [hnode]
      · simp [hs, Ne.symm hs]
    · simp [he]
  · rw [if_neg hnode]
    by_cases he : e = d ∧ s.node = id
    · obtain ⟨rfl, hs⟩ := he
      have hne : l.side e ≠ s := by
        rintro rfl
        exact hnode hs
      simp [Link.farEnds_cons, hne]
    · rw [if_neg he]

/-- Restoring a link adds it at those of its ends that are ports of the vertex. -/
theorem peers_restore {g : Graph ν} {id : NodeId} {l : Link}
    (hl : ∀ d, (l.side d).node = id →
      g.HasPort d (l.side d) ∧ (φ = .multi ∨ g.peers d (l.side d) = []))
    (e : Direction) (s : Slot) :
    (restore id g l).peers e s =
      if s.node = id then g.peers e s ++ Link.farEnds e s [l] else g.peers e s := by
  have hfirst := peers_restoreEnd (hl .incoming)
  have hport : (l.side .outgoing).node = id →
      (restoreEnd id .incoming g l).HasPort .outgoing (l.side .outgoing) ∧
        (φ = .multi ∨ (restoreEnd id .incoming g l).peers .outgoing (l.side .outgoing) = []) := by
    intro hnode
    obtain ⟨hport, hroom⟩ := hl .outgoing hnode
    refine ⟨(rewired_restoreEnd id .incoming g l).hasPort_iff.mpr hport, ?_⟩
    rw [hfirst, if_neg (by simp)]
    exact hroom
  rw [restore_eq, peers_restoreEnd hport, hfirst]
  cases e <;> simp

/-- All kept links are restored at the ports of the vertex, in order. -/
theorem foldl_restore {g : Graph ν} {id : NodeId} {ls : List Link}
    (hport : ∀ l ∈ ls, ∀ d, (l.side d).node = id → g.HasPort d (l.side d))
    (hroom : φ = .multi ∨ ∀ d s, s.node = id → (g.peers d s ++ Link.farEnds d s ls).length ≤ 1) :
    Rewired g (ls.foldl (restore id) g) ∧
      ∀ d s, (ls.foldl (restore id) g).peers d s =
        if s.node = id then g.peers d s ++ Link.farEnds d s ls else g.peers d s := by
  induction ls generalizing g with
  | nil => exact ⟨.refl g, fun d s => by simp⟩
  | cons l rest ih =>
    have hl (d : Direction) (hnode : (l.side d).node = id) :
        g.HasPort d (l.side d) ∧ (φ = .multi ∨ g.peers d (l.side d) = []) := by
      refine ⟨hport l (.head _) d hnode, hroom.imp_right ?_⟩
      intro hlen
      have hle := hlen d (l.side d) hnode
      rw [Link.farEnds_cons, if_pos rfl, List.length_append, List.length_cons] at hle
      have hzero : (g.peers d (l.side d)).length = 0 := by omega
      exact List.length_eq_zero_iff.mp hzero
    have hr : Rewired g (restore id g l) := by
      rw [restore_eq]
      exact (rewired_restoreEnd id .incoming g l).trans (rewired_restoreEnd id .outgoing _ l)
    have hfirst := peers_restore hl
    have hpeers (d : Direction) (s : Slot) (hs : s.node = id) :
        (restore id g l).peers d s ++ Link.farEnds d s rest =
          g.peers d s ++ Link.farEnds d s (l :: rest) := by
      rw [hfirst, if_pos hs, List.append_assoc, ← Link.farEnds_append]
      rfl
    obtain ⟨hr', hrest⟩ := ih
      (fun m hm d hnode => hr.hasPort_iff.mpr (hport m (.tail _ hm) d hnode))
      (hroom.imp_right fun hlen d s hs => by
        rw [hpeers d s hs]
        exact hlen d s hs)
    refine ⟨hr.trans hr', ?_⟩
    intro d s
    rw [List.foldl_cons, hrest]
    by_cases hs : s.node = id
    · rw [if_pos hs, if_pos hs, hpeers d s hs]
    · rw [if_neg hs, if_neg hs, hfirst, if_neg hs]

/-! ## Dropping what is lost -/

omit [LawfulPorts φ ν] in
/-- A lost link is removed at the end that is a port of another vertex. -/
theorem val_dropLost {id : NodeId} {d : Direction} {l : Link}
    (hnear : (l.side d.opposite).node = id) (hfar : (l.side d).node ≠ id) (g : Graph ν) :
    (dropLost id g l).val = g.adjustPort d (l.side d) (·.unlink (l.side d.opposite)) := by
  have hloop : ¬l.isLoopAt id = true := by
    cases d with
    | incoming =>
      have hin : l.input.node ≠ id := hfar
      simp [Link.isLoopAt, hin]
    | outgoing =>
      have hout : l.output.node ≠ id := hfar
      simp [Link.isLoopAt, hout]
  unfold dropLost
  rw [if_neg hloop]
  cases d with
  | incoming =>
    have hin : l.input.node ≠ id := hfar
    rw [if_neg hin]
    rfl
  | outgoing =>
    have hin : l.input.node = id := hnear
    rw [if_pos hin]
    rfl

omit [LawfulPorts φ ν] in
/-- Nothing is left to remove of a lost loop. -/
theorem val_dropLost_of_loop {id : NodeId} {l : Link} (hl : ∀ d, (l.side d).node = id)
    (g : Graph ν) : (dropLost id g l).val = g := by
  have hout : l.output.node = id := hl .outgoing
  have hin : l.input.node = id := hl .incoming
  have hloop : l.isLoopAt id = true := by simp [Link.isLoopAt, hout, hin]
  unfold dropLost
  rw [if_pos hloop]
  rfl

/-- What dropping a lost link does: the earliest entry for it goes at the port of another vertex,
and no vertex but that one is touched. -/
theorem dropLost_spec {id : NodeId} {l : Link} (hl : l.touches id = true) (g : Graph ν) :
    Rewired g (dropLost id g l).val ∧
      (∀ e s, (dropLost id g l).val.peers e s =
        if s.node ≠ id ∧ s = l.side e then (g.peers e s).erase (l.side e.opposite)
        else g.peers e s) ∧
      ∀ k, (k = id ∨ ∀ d, (l.side d).node ≠ k) → (dropLost id g l).val.find? k = g.find? k := by
  by_cases hloop : ∀ d, (l.side d).node = id
  · rw [val_dropLost_of_loop hloop]
    refine ⟨.refl g, ?_, fun _ _ => rfl⟩
    intro e s
    rw [if_neg]
    rintro ⟨hs, rfl⟩
    exact hs (hloop e)
  · -- one end is a port of the vertex, the other is not
    have hends : ∃ d, (l.side d.opposite).node = id ∧ (l.side d).node ≠ id := by
      rcases (Link.touches_iff .incoming).mp hl with hin | hout
      · refine ⟨.outgoing, hin, fun hout => hloop ?_⟩
        intro d
        cases d with
        | incoming => exact hin
        | outgoing => exact hout
      · refine ⟨.incoming, hout, fun hin => hloop ?_⟩
        intro d
        cases d with
        | incoming => exact hin
        | outgoing => exact hout
    obtain ⟨d, hnear, hfar⟩ := hends
    rw [val_dropLost hnear hfar]
    refine ⟨g.rewired_adjustPort d _ fun p => p.offset_unlink _, ?_, ?_⟩
    · intro e s
      rw [peers_adjustPort_unlink]
      by_cases he : e = d
      · subst he
        by_cases hs : s = l.side e
        · rw [if_pos ⟨rfl, hs⟩, if_pos ⟨hs ▸ hfar, hs⟩]
        · rw [if_neg fun h => hs h.2, if_neg fun h => hs h.2]
      · have hopp := Direction.eq_opposite_of_ne he
        subst hopp
        rw [if_neg fun h => he h.1, if_neg]
        rintro ⟨hs, rfl⟩
        exact hs hnear
    · intro k hk
      rw [adjustPort, find?_adjust, if_neg]
      rintro rfl
      rcases hk with rfl | hk
      · exact hfar rfl
      · exact hk d rfl

/-- Dropping all lost links removes as many entries of each at the ports of other vertices. -/
theorem foldl_dropLost {id : NodeId} {ls : List Link} (hls : ∀ l ∈ ls, l.touches id = true)
    (g : Graph ν) :
    Rewired g (ls.foldl (fun g l => (dropLost id g l).val) g) ∧
      (∀ d s, s.node = id →
        (ls.foldl (fun g l => (dropLost id g l).val) g).peers d s = g.peers d s) ∧
      (∀ d s, ((ls.foldl (fun g l => (dropLost id g l).val) g).peers d s).Sublist (g.peers d s)) ∧
      (∀ d s t, s.node ≠ id →
        ((ls.foldl (fun g l => (dropLost id g l).val) g).peers d s).count t =
          (g.peers d s).count t - ls.count (.between d s t)) ∧
      ∀ k, (k = id ∨ ∀ l ∈ ls, ∀ d, (l.side d).node ≠ k) →
        (ls.foldl (fun g l => (dropLost id g l).val) g).find? k = g.find? k := by
  induction ls generalizing g with
  | nil =>
    exact ⟨.refl g, fun _ _ _ => rfl, fun _ _ => List.Sublist.refl _, fun _ _ _ _ => rfl,
      fun _ _ => rfl⟩
  | cons l rest ih =>
    obtain ⟨hr, hpeers, hfind⟩ := dropLost_spec (hls l (.head _)) g
    obtain ⟨hr', hnear, hsub, hcount, hfind'⟩ :=
      ih (fun m hm => hls m (.tail _ hm)) (dropLost id g l).val
    refine ⟨hr.trans hr', ?_, ?_, ?_, ?_⟩
    · intro d s hs
      rw [List.foldl_cons, hnear d s hs, hpeers, if_neg fun h => h.1 hs]
    · intro d s
      refine (hsub d s).trans ?_
      rw [hpeers]
      split
      · exact List.erase_sublist
      · exact List.Sublist.refl _
    · intro d s t hs
      rw [List.foldl_cons, hcount d s t hs, hpeers, List.count_cons]
      by_cases hside : s = l.side d
      · rw [if_pos ⟨hs, hside⟩, List.count_erase]
        by_cases ht : l.side d.opposite = t
        · have hl : l = .between d s t := Link.eq_between_iff.mpr ⟨hside.symm, ht⟩
          rw [if_pos (by simpa using ht), if_pos (by simpa using hl)]
          omega
        · have hl : l ≠ .between d s t := fun h => ht (Link.eq_between_iff.mp h).2
          rw [if_neg (by simpa using ht), if_neg (by simpa using hl)]
          rfl
      · have hl : l ≠ .between d s t := fun h => hside (Link.eq_between_iff.mp h).1.symm
        rw [if_neg fun h => hside h.2, if_neg (by simpa using hl)]
        rfl
    · intro k hk
      rw [List.foldl_cons, hfind' k (hk.imp_right fun h m hm => h m (.tail _ hm)),
        hfind k (hk.imp_right fun h => h l (.head _))]

/-! ## The revised vertex without connections -/

/-- The graph with `u` in place of vertex `id`, without connections. -/
def seated (g : Graph ν) (id : NodeId) (u : ν) : Graph ν :=
  g.adjust id fun _ => Vertex.clearLinks u

section Seated

variable {g : Graph ν} {id : NodeId} {v : ν} (hv : g.find? id = some v) (u : ν)

include hv

omit [LawfulPorts φ ν] in
theorem find?_seated_self : (g.seated id u).find? id = some (Vertex.clearLinks u) := by
  rw [seated, find?_adjust, if_pos rfl, hv]
  rfl

/-- The vertex in its place lists nothing. -/
theorem peers_seated_self (d : Direction) {s : Slot} (hs : s.node = id) :
    (g.seated id u).peers d s = [] := by
  have hfound := find?_seated_self hv u
  rw [← hs] at hfound
  rw [← hs, peers_eq_of_find? hfound]
  exact Vertex.peers_clearLinks d s.offset u

/-- It has ports where the revised vertex has. -/
theorem hasPort_seated {d : Direction} {s : Slot} (hs : s.node = id) {p : Port φ}
    (hp : Vertex.port? d s.offset u = some p) : (g.seated id u).HasPort d s := by
  refine ⟨p.clear, ?_⟩
  rw [port?, hs, find?_seated_self hv, Option.bind_some, Vertex.clearLinks, Vertex.port?_mapPorts,
    hp]
  rfl

end Seated

omit [LawfulPorts φ ν] in
/-- The other vertices are not touched. -/
theorem find?_seated_of_ne (g : Graph ν) {id k : NodeId} (hk : k ≠ id) (u : ν) :
    (g.seated id u).find? k = g.find? k := by
  rw [seated, find?_adjust, if_neg hk]

/-! ## Repair -/

omit [LawfulPorts φ ν] in
/-- The vertex reports its membership after it was bound again. -/
theorem membership_rebind [JoiningVertex φ ν] (g : Graph ν) (id : NodeId) (w : ν) :
    Vertex.membership (g.rebind id w).val = some ⟨g.id, id⟩ := by
  unfold rebind
  split
  · next h => exact h
  · exact JoiningVertex.membership_onJoin _ w

omit [LawfulPorts φ ν] in
/-- In a repair kept links are restored at the ports of the revised vertex and lost ones dropped. -/
theorem val_repair (g : Graph ν) (id : NodeId) (v w : ν) :
    (g.repair id (Vertex.links .incoming id v) (Vertex.links .outgoing id v) w).val =
      (settlement id v (g.rebind id w).val).lost.foldl (fun g l => (dropLost id g l).val)
        ((settlement id v (g.rebind id w).val).kept.foldl (restore id)
          (g.seated id (g.rebind id w).val)) :=
  Journaled.val_foldlM _ _ _

/-- `h` is `g` with `u` in place of vertex `id`, where `kept` are the links at its ports and `lost`
those that were removed at other ones. -/
structure Repaired (g : Graph ν) (id : NodeId) (u : ν) (kept lost : List Link) (h : Graph ν) :
    Prop where
  id_eq : h.id = g.id
  next_eq : h.next = g.next
  vertex : ∃ w, h.find? id = some w ∧ Vertex.Rewired u w
  others {k : NodeId} (hk : k ≠ id) : Option.Rel Vertex.Rewired (g.find? k) (h.find? k)
  peers {d : Direction} {s : Slot} (hs : s.node = id) : h.peers d s = Link.farEnds d s kept
  sublist {d : Direction} {s : Slot} (hs : s.node ≠ id) : (h.peers d s).Sublist (g.peers d s)
  count {d : Direction} {s : Slot} (hs : s.node ≠ id) (t : Slot) :
    (h.peers d s).count t = (g.peers d s).count t - lost.count (.between d s t)
  untouched {k : NodeId} (hk : k ≠ id) (hlost : ∀ l ∈ lost, ∀ d, (l.side d).node ≠ k) :
    h.find? k = g.find? k

omit [LawfulPorts φ ν] in
/-- At the ports of the vertex, no link is kept more often than it is recorded there. -/
theorem count_kept_le {g : Graph ν} (hg : g.Consistent) {id : NodeId} {v : ν}
    (hv : g.find? id = some v) (u : ν) {l : Link} {d : Direction} (hd : (l.side d).node = id) :
    (settlement id v u).kept.count l ≤
      (Vertex.peers d (l.side d).offset u).count (l.side d.opposite) := by
  have htouches : l.touches id = true := (Link.touches_iff d).mpr (.inl hd)
  have hkept := (count_settlement hg hv u htouches).1
  have hle := recorded_le hd u
  have hlinks := Vertex.count_links d id u l
  rw [if_pos hd] at hlinks
  omega

/-- So there is a port for each end of a kept link at the vertex. -/
theorem hasPort_of_mem_kept {g : Graph ν} (hg : g.Consistent) {id : NodeId} {v : ν}
    (hv : g.find? id = some v) (u : ν) {l : Link} (hl : l ∈ (settlement id v u).kept)
    {d : Direction} (hd : (l.side d).node = id) : (g.seated id u).HasPort d (l.side d) := by
  have hle := count_kept_le hg hv u hd
  have hpos : 0 < (settlement id v u).kept.count l := List.count_pos_iff.mpr hl
  have hmem : l.side d.opposite ∈ Vertex.peers d (l.side d).offset u :=
    List.count_pos_iff.mp (Nat.lt_of_lt_of_le hpos hle)
  obtain ⟨p, hp⟩ := Vertex.exists_port?_of_mem_peers hmem
  exact hasPort_seated hv u hd hp

/-- Single ports have room for what is kept. -/
theorem room_for_kept {g : Graph ν} (hg : g.Consistent) {id : NodeId} {v : ν}
    (hv : g.find? id = some v) (u : ν) :
    φ = .multi ∨ ∀ d s, s.node = id →
      ((g.seated id u).peers d s ++ Link.farEnds d s (settlement id v u).kept).length ≤ 1 := by
  cases φ with
  | multi => exact .inl rfl
  | single =>
    apply Or.inr
    intro d s hs
    rw [peers_seated_self hv u d hs, List.nil_append]
    have hsub : (Link.farEnds d s (settlement id v u).kept).Subperm
        (Vertex.peers d s.offset u) := by
      apply List.subperm_ext_iff.mpr
      intro t _
      have hnode : ((Link.between d s t).side d).node = id := by rwa [Link.side_between]
      have hle := count_kept_le hg hv u hnode
      rw [Link.side_between, Link.side_opposite_between] at hle
      rwa [Link.count_farEnds]
    exact Nat.le_trans hsub.length_le (Vertex.length_peers_le d s.offset u rfl)

/-- A repair puts the revised vertex in its place, with the links that are kept. -/
theorem repaired_repair {g : Graph ν} (hg : g.Consistent) {id : NodeId} {v : ν}
    (hv : g.find? id = some v) (w : ν) :
    Repaired g id (g.rebind id w).val (settlement id v (g.rebind id w).val).kept
      (settlement id v (g.rebind id w).val).lost
      (g.repair id (Vertex.links .incoming id v) (Vertex.links .outgoing id v) w).val := by
  rw [val_repair]
  generalize (g.rebind id w).val = u
  obtain ⟨hr, hkept⟩ := foldl_restore (fun l hl d hd => hasPort_of_mem_kept hg hv u hl hd)
    (room_for_kept hg hv u)
  obtain ⟨hr', hsame, hsub, hcount, huntouched⟩ := foldl_dropLost
    (fun l hl => touches_of_mem_settlement hg hv u (.inr hl))
    ((settlement id v u).kept.foldl (restore id) (g.seated id u))
  have hall := hr.trans hr'
  obtain ⟨w', hw', hrewired⟩ := hall.exists_find? (find?_seated_self hv u)
  have hcleared : Vertex.Rewired u (Vertex.clearLinks u) :=
    Vertex.rewired_mapPorts (fun p => p.offset_clear) u
  have hfar (d : Direction) {s : Slot} (hs : s.node ≠ id) :
      (g.seated id u).peers d s = g.peers d s :=
    peers_congr (port?_congr (g.find?_seated_of_ne hs u))
  refine ⟨hall.id_eq, hall.next_eq, ⟨w', hw', hcleared.trans hrewired⟩, ?_, ?_, ?_, ?_, ?_⟩
  · intro k hk
    have hk' := hall.vertices k
    rwa [g.find?_seated_of_ne hk] at hk'
  · intro d s hs
    rw [hsame d s hs, hkept, if_pos hs, peers_seated_self hv u d hs, List.nil_append]
  · intro d s hs
    have hs' := hsub d s
    rwa [hkept, if_neg hs, hfar d hs] at hs'
  · intro d s hs t
    rw [hcount d s t hs, hkept, if_neg hs, hfar d hs]
  · intro k hk hlost
    rw [huntouched k (.inr hlost), find?_foldl_restore hk, g.find?_seated_of_ne hk]

end Graph

end PortGraph
