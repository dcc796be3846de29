import PortGraph.Proofs.Hooks
import PortGraph.Proofs.Sessions

/-!
# Copies of damaged graphs

Ports that vertices renew or drop when they move leave one-sided connections behind, and connections
to nothing. Copying such a graph may stop at any of them: the port may be missing among the copies,
or taken. The connections up to there are made all the same, both ends at once (`Replayed`), so that
the graph with the copies is consistent whatever is copied, and what it held before is not touched
(`Grafted`). So it is with clones (`Regrown`).
-/

namespace PortGraph.Graph

variable {φ : Flavour} {ν : Type} [Vertex φ ν]

/-! ## Connections made until one fails -/

/-- `h` has the connections of `g` and those of the links `made`, which came later. -/
def Gains (g h : Graph ν) (made : List Link) : Prop :=
  ∀ d s, h.peers d s = g.peers d s ++ Link.farEnds d s made

/-- `h` has the connections of `g` and those of the links `ls`, as the answer says: all of them, or
those before the first that cannot be made. -/
inductive Replayed (g h : Graph ν) (ls : List Link) : Except ConnectError Unit → Prop where
  | all (hgains : g.Gains h ls) : Replayed g h ls (.ok ())
  | cut {made rest : List Link} {l : Link} {e : ConnectError} (hls : ls = made ++ l :: rest)
    (hgains : g.Gains h made)
    (hrefused : (h.connect .incoming l.input l.output).val = (h, .error e)) :
    Replayed g h ls (.error e)

section Connecting

variable {f g h : Graph ν}

/-- Where a port has room for a connection, it is made or refused with an error. -/
theorem connect_of_room {d : Direction} {p q : Slot} (hroom : φ = .multi ∨ g.peers d p = []) :
    g.Admits (.between d p q) ∨ ∃ e, (g.connect d p q).val = (g, .error e) := by
  have houtcome := g.connect_outcome d p q
  generalize g.connect d p q = c at houtcome ⊢
  cases houtcome with
  | near | far | mismatch => exact .inr ⟨_, rfl⟩
  | joined hp hq => exact .inl (admits_between_iff.mpr ⟨hp, hq⟩)
  | found hp =>
    obtain ⟨hφ, hq⟩ := linkCheck_eq_ok_false_iff.mp hp
    rcases hroom with hmulti | hnil
    · cases hφ.symm.trans hmulti
    · rw [hnil] at hq
      cases hq

/-- What was there before may be any graph that lists the same. -/
theorem Replayed.of_peers_eq {ls : List Link} {answer : Except ConnectError Unit}
    (h' : Replayed g h ls answer) (hpeers : ∀ d s, g.peers d s = f.peers d s) :
    Replayed f h ls answer := by
  cases h' with
  | all hgains => exact .all fun d s => hpeers d s ▸ hgains d s
  | cut hls hgains hrefused => exact .cut hls (fun d s => hpeers d s ▸ hgains d s) hrefused

/-- Connecting others does not touch a vertex. -/
theorem find?_connectAll {ls : List Link} {k : NodeId} (hls : ∀ l ∈ ls, ∀ d, (l.side d).node ≠ k) :
    (g.connectAll ls).val.1.find? k = g.find? k := by
  induction ls generalizing g with
  | nil => rfl
  | cons l rest ih =>
    have hfirst : (g.connect .incoming l.input l.output).val.1.find? k = g.find? k := by
      by_cases h : g.Admits (.between .incoming l.input l.output)
      · have hl := hls l (.head _)
        rw [connect_of_admits h]
        exact (find?_adjustPort_of_ne (hl .outgoing).symm).trans
          (find?_adjustPort_of_ne (hl .incoming).symm)
      · rw [(connect_of_not_admits h).1]
    rw [connectAll, Journaled.val_bind]
    generalize (g.connect .incoming l.input l.output).val = made at hfirst
    obtain ⟨h, e | b⟩ := made
    · exact hfirst
    · exact (ih fun m hm => hls m (.tail _ hm)).trans hfirst

variable [LawfulPorts φ ν]

/-- Connections are made up to the first that fails, where each input has room for its own. -/
theorem replayed_connectAll (g : Graph ν) {ls : List Link}
    (hroom : φ = .multi ∨ ∀ s, (g.peers .incoming s ++ Link.farEnds .incoming s ls).length ≤ 1) :
    Replayed g (g.connectAll ls).val.1 ls (g.connectAll ls).val.2 := by
  induction ls generalizing g with
  | nil => exact .all fun d s => (List.append_nil _).symm
  | cons l rest ih =>
    have hl : Link.between .incoming l.input l.output = l := rfl
    have hfree : φ = .multi ∨ g.peers .incoming l.input = [] := by
      refine hroom.imp_right fun hlen => ?_
      have hle := hlen (l.side .incoming)
      rw [Link.farEnds_cons, if_pos rfl, List.length_append, List.length_cons] at hle
      have hzero : (g.peers .incoming (l.side .incoming)).length = 0 := by omega
      exact List.length_eq_zero_iff.mp hzero
    rw [connectAll, Journaled.val_bind]
    rcases connect_of_room (q := l.output) hfree with hadmits | ⟨e, he⟩
    · have hpeers (d : Direction) (s : Slot) (ms : List Link) :
          (g.join .incoming l.input l.output).peers d s ++ Link.farEnds d s ms =
            g.peers d s ++ Link.farEnds d s (l :: ms) := by
        rw [peers_join hadmits, hl, List.append_assoc, ← Link.farEnds_append]
        rfl
      have hrest := ih (g := g.join .incoming l.input l.output) <| hroom.imp_right fun hlen s => by
        rw [hpeers]
        exact hlen s
      rw [connect_of_admits hadmits]
      change Replayed g ((g.join .incoming l.input l.output).connectAll rest).val.1 (l :: rest)
        ((g.join .incoming l.input l.output).connectAll rest).val.2
      generalize ((g.join .incoming l.input l.output).connectAll rest).val = made at hrest
      obtain ⟨h, answer⟩ := made
      cases hrest with
      | all hgains => exact .all fun d s => (hgains d s).trans (hpeers d s rest)
      | @cut made rest' l' e hls hgains hrefused =>
        have hsplit : l :: rest = (l :: made) ++ l' :: rest' := congrArg (l :: ·) hls
        exact .cut hsplit (fun d s => (hgains d s).trans (hpeers d s made)) hrefused
    · rw [he]
      have hsplit : l :: rest = [] ++ l :: rest := rfl
      exact .cut hsplit (fun d s => (List.append_nil _).symm) he

end Connecting

/-! ## Copies of vertices -/

/-- The links of the inputs of `source`, in order, under new names. -/
def copiedLinks (source : Graph ν) (names : Renaming) : List Link :=
  source.inboundLinks.filterMap (renamedLink? names)

section Copies

variable {source dest g : Graph ν} {names : Renaming}

/-- `g` is `dest` with newcomers, which have the new names `names` and no connections. -/
structure Admitted (dest g : Graph ν) (names : Renaming) : Prop where
  /-- What was stored is as it was. -/
  kept {k : NodeId} {v : ν} (hv : dest.find? k = some v) : g.find? k = some v
  peers_eq (d : Direction) (s : Slot) : g.peers d s = dest.peers d s
  /-- A new name was in nobody's use, and was handed out. -/
  unused {k a : NodeId} (hk : names.get? k = some a) : dest.find? a = none
  below {k a : NodeId} (hk : names.get? k = some a) : a < g.next
  injective : names.Injective

theorem Admitted.start (dest : Graph ν) : Admitted dest dest .empty where
  kept hv := hv
  peers_eq _ _ := rfl
  unused hk := nomatch hk
  below hk := nomatch hk
  injective _ _ _ hk := nomatch hk

/-- Among newcomers the inputs have room for what the inputs of the source list. -/
theorem room_for_copiedLinks (source : Graph ν) (hinj : names.Injective)
    (hnew : ∀ k t, names.get? k = some t.node → g.peers .incoming t = []) :
    φ = .multi ∨
      ∀ t, (g.peers .incoming t ++
        Link.farEnds .incoming t (source.copiedLinks names)).length ≤ 1 := by
  cases φ with
  | multi => exact .inl rfl
  | single =>
    apply Or.inr
    intro t
    unfold copiedLinks
    by_cases hnamed : ∃ k, names.get? k = some t.node
    · obtain ⟨k, hk⟩ := hnamed
      rw [hnew k t hk, List.nil_append, hinj.farEnds_filterMap (Renaming.slot?_of_get? hk),
        farEnds_inboundLinks]
      exact Nat.le_trans (List.length_filterMap_le _ _) (source.length_peers_le .incoming _ rfl)
    · rw [Renaming.farEnds_filterMap_eq_nil (fun k hk => hnamed ⟨k, hk⟩), List.append_nil]
      exact g.length_peers_le .incoming t rfl

variable [LawfulPorts φ ν] [PassiveVertex φ ν]

/-- A copy is inserted under a name that was in nobody's use, or refused. -/
theorem Admitted.insertCopy (ha : Admitted dest g names) (k : NodeId) (v : ν) :
    ((g.insertCopy v).val.2 = .ok g.next ∧
        Admitted dest (g.insertCopy v).val.1 (names.insert k g.next)) ∨
      (g.insertCopy v).val.2 = .error (.conflictingId g.next) ∧
        Admitted dest (g.insertCopy v).val.1 names := by
  have hpeers (d : Direction) (s : Slot) :
      (g.insertCopy v).val.1.peers d s = dest.peers d s :=
    (g.peers_insert (Vertex.copy v) d s).trans (ha.peers_eq d s)
  by_cases hnext : g.contains g.next = true
  · have hval : (g.insertCopy v).val = _ := adopt_of_contains hnext _
    rw [hval] at hpeers ⊢
    exact .inr ⟨rfl, fun hv => ha.kept hv, hpeers, ha.unused,
      fun hk => NodeId.lt_trans (ha.below hk) (NodeId.lt_next g.next), ha.injective⟩
  · have hval : (g.insertCopy v).val = _ := adopt_of_not_contains hnext _
    rw [hval] at hpeers ⊢
    have hnone := not_contains_iff.mp hnext
    have hget (k' : NodeId) := IdMap.get?_insert names k k' g.next
    refine .inl ⟨rfl, fun {j w} hw => ?_, hpeers, fun {j a} hj => ?_, fun {j a} hj => ?_, ?_⟩
    · rw [find?_store, if_neg, ha.kept hw]
      rintro rfl
      rw [ha.kept hw] at hnone
      cases hnone
    · rw [hget] at hj
      split at hj
      · cases hj
        cases hw : dest.find? g.next with
        | none => rfl
        | some w => exact absurd (ha.kept hw) (by rw [hnone]; nofun)
      · exact ha.unused hj
    · rw [hget] at hj
      split at hj
      · cases hj
        exact NodeId.lt_next g.next
      · exact NodeId.lt_trans (ha.below hj) (NodeId.lt_next g.next)
    · intro j j' a hj hj'
      have hold {i : NodeId} (hi : names.get? i = some g.next) : False :=
        NodeId.lt_irrefl _ (ha.below hi)
      rw [hget] at hj hj'
      split at hj
      · next hkj =>
        cases hj
        split at hj'
        · next hkj' => exact hkj.symm.trans hkj'
        · exact (hold hj').elim
      · split at hj'
        · cases hj'
          exact (hold hj).elim
        · exact ha.injective hj hj'

/-- Copies of many vertices are inserted one after the other, each under a new name of its own,
until one is refused. -/
theorem Admitted.insertCopies (ha : Admitted dest g names) (es : List (NodeId × ν)) :
    ∃ names', Admitted dest (g.insertCopies names es).val.1 names' ∧
      ((g.insertCopies names es).val.2 = .ok names' ∧
          (∀ k, (∃ a, names'.get? k = some a) ↔
            (∃ a, names.get? k = some a) ∨ k ∈ es.map Prod.fst) ∨
        ∃ k, (g.insertCopies names es).val.2 = .error (.conflictingId k)) := by
  induction es generalizing g names with
  | nil => exact ⟨names, ha, .inl ⟨rfl, fun k => by simp⟩⟩
  | cons e rest ih =>
    obtain ⟨k, v⟩ := e
    have hfirst := ha.insertCopy k v
    rw [Graph.insertCopies, Journaled.val_bind]
    generalize (g.insertCopy v).val = made at hfirst
    obtain ⟨h, answer⟩ := made
    rcases hfirst with ⟨rfl, hadmitted⟩ | ⟨rfl, hadmitted⟩
    · obtain ⟨names', hrest, hanswer⟩ := ih hadmitted
      refine ⟨names', hrest, ?_⟩
      rcases hanswer with ⟨hok, hdomain⟩ | hrefused
      · refine .inl ⟨hok, fun j => ?_⟩
        rw [hdomain, IdMap.get?_insert]
        by_cases hkj : k = j
        · simp [hkj]
        · simp [hkj, Ne.symm hkj]
      · exact .inr hrefused
    · exact ⟨names, hadmitted, .inr ⟨_, rfl⟩⟩

end Copies

/-! ## Graphs with copies -/

/-- The vertices of `source` have new names, which nobody has in `dest`. -/
structure FreshNames (source dest : Graph ν) (names : Renaming) : Prop where
  named_iff (k : NodeId) : (∃ a, names.get? k = some a) ↔ source.contains k = true
  unused {k a : NodeId} (hk : names.get? k = some a) : dest.find? a = none
  injective : names.Injective

/-- `h` is `dest` with copies of the vertices of `source`, connected as far as the answer says. -/
inductive Copied (source dest h : Graph ν) : Except GraphError Renaming → Prop where
  | all {names : Renaming} (hnames : FreshNames source dest names)
    (hlinks : Replayed dest h (source.copiedLinks names) (.ok ())) :
    Copied source dest h (.ok names)
  | cut {names : Renaming} {e : ConnectError} (hnames : FreshNames source dest names)
    (hlinks : Replayed dest h (source.copiedLinks names) (.error e)) :
    Copied source dest h (.error (.connect e))
  /-- A vertex was refused. Nothing is connected then. -/
  | refused {k : NodeId} (hgains : dest.Gains h []) :
    Copied source dest h (.error (.conflictingId k))

/-- What copying `source` into a consistent graph comes to. -/
structure Grafted (source dest : Graph ν) : Prop where
  /-- The source is what it was. -/
  leaves_eq : (Call.copyInto source dest).leaves = [source, (source.copyInto dest).val.1]
  consistent : (source.copyInto dest).val.1.Consistent
  /-- Every vertex that there was is as it was. -/
  kept {k : NodeId} {v : ν} (hv : dest.find? k = some v) :
    (source.copyInto dest).val.1.find? k = some v
  copied : Copied source dest (source.copyInto dest).val.1 (source.copyInto dest).val.2

/-- What cloning `source` comes to. -/
structure Regrown (source : Graph ν) (id : GraphId) : Prop where
  leaves_eq : (Call.clone source id).leaves = [source, (source.clone id).val]
  consistent : (source.clone id).val.Consistent
  ids_eq : (source.clone id).val.ids = source.ids
  /-- Of the connections that the inputs list those are there that come before the first that cannot
  be made. -/
  replayed : ∃ answer, Replayed (.empty id) (source.clone id).val
    (source.copiedLinks source.ownNames) answer

section Damaged

/-- Connecting copies does not touch a vertex that was there. -/
theorem FreshNames.find?_connectAll {source dest g : Graph ν} {names : Renaming}
    (hnames : FreshNames source dest names) {k : NodeId} {v : ν} (hv : dest.find? k = some v) :
    (g.connectAll (source.copiedLinks names)).val.1.find? k = g.find? k := by
  refine Graph.find?_connectAll fun l hl d hside => ?_
  obtain ⟨m, _, hm⟩ := List.mem_filterMap.mp hl
  have hname := hnames.unused (Renaming.slot?_eq_some_iff.mp (Renaming.slot?_side hm d)).1
  rw [hside, hv] at hname
  cases hname

variable [LawfulPorts φ ν]

/-- Where every vertex was taken in, connections are made among the newcomers only. -/
theorem copied_of_admitted {source dest h : Graph ν} {names : Renaming}
    (hok : (dest.insertCopies .empty source.vertices.entries).val = (h, .ok names))
    (hnames : FreshNames source dest names) (hadmitted : Admitted dest h names) :
    Copied source dest (source.copyInto dest).val.1 (source.copyInto dest).val.2 ∧
      ∀ k v, dest.find? k = some v → (source.copyInto dest).val.1.find? k = some v := by
  have hroom := room_for_copiedLinks source (g := h) hnames.injective fun k t hk => by
    rw [hadmitted.peers_eq, peers_eq_nil_of_find? (hnames.unused hk)]
  have hlinks := (h.replayed_connectAll hroom).of_peers_eq hadmitted.peers_eq
  have hkept (k : NodeId) (v : ν) (hv : dest.find? k = some v) :=
    (hnames.find?_connectAll (g := h) hv).trans (hadmitted.kept hv)
  rw [val_copyInto_of_ok hok, ← copiedLinks]
  generalize (h.connectAll (source.copiedLinks names)).val = wired at hlinks hkept
  obtain ⟨f, e | _⟩ := wired
  · exact ⟨.cut hnames hlinks, hkept⟩
  · exact ⟨.all hnames hlinks, hkept⟩

variable [PassiveVertex φ ν]

/-- Copying any graph into a consistent one makes connections among the copies only. -/
theorem grafted (source : Graph ν) {dest : Graph ν} (hdest : dest.Consistent) :
    Grafted source dest := by
  have hconsistent := hdest.copyInto source
  obtain ⟨names, hadmitted, hanswer⟩ := (Admitted.start dest).insertCopies source.vertices.entries
  generalize hmade : (dest.insertCopies .empty source.vertices.entries).val = made
    at hadmitted hanswer
  obtain ⟨h, answer⟩ := made
  rcases hanswer with ⟨rfl, hdomain⟩ | ⟨k, rfl⟩
  · have hnames : FreshNames source dest names := by
      refine ⟨fun k => ?_, hadmitted.unused, hadmitted.injective⟩
      have hnone : ¬∃ a, (IdMap.empty : Renaming).get? k = some a := nofun
      rw [hdomain, or_iff_right hnone]
      exact IdMap.mem_keys_iff
    obtain ⟨hcopied, hkept⟩ := copied_of_admitted hmade hnames hadmitted
    exact ⟨rfl, hconsistent, hkept _ _, hcopied⟩
  · have hval : (source.copyInto dest).val = (h, .error (.conflictingId k)) := by
      unfold copyInto
      simp only [Journaled.val_bind, hmade]
      rfl
    have hgains : dest.Gains h [] := fun d s => by
      rw [hadmitted.peers_eq, Link.farEnds_nil, List.append_nil]
    exact ⟨rfl, hconsistent, hval ▸ hadmitted.kept, hval ▸ .refused hgains⟩

/-- The clone of any graph has its identifiers, and connections among its vertices only. -/
theorem regrown (source : Graph ν) (id : GraphId) : Regrown source id := by
  have hblank : ∀ d s, (source.unlinkedClone id).peers d s = (Graph.empty id : Graph ν).peers d s :=
    fun d s => (source.peers_unlinkedClone id d s).trans (peers_of_vertices_eq_empty rfl d s).symm
  have hinj : source.ownNames.Injective := by
    have hown {k a : NodeId} (hk : source.ownNames.get? k = some a) : k = a := by
      rw [ownNames, IdMap.get?_mapValues] at hk
      obtain ⟨_, _, hka⟩ := Option.map_eq_some_iff.mp hk
      exact hka
    intro k k' a hk hk'
    exact (hown hk).trans (hown hk').symm
  have hroom := room_for_copiedLinks source hinj fun _ t _ =>
    source.peers_unlinkedClone id .incoming t
  have hlinks := ((source.unlinkedClone id).replayed_connectAll hroom).of_peers_eq hblank
  exact ⟨rfl, source.consistent_clone id, source.ids_clone id, _, source.val_clone id ▸ hlinks⟩

/-- Whatever state a graph is in, copies of it are well wired: in a consistent graph that they are
added to, whose vertices are left alone, and in a clone. The graph itself stays as it is. -/
theorem copies_well_wired (source : Graph ν) :
    (∀ dest : Graph ν, dest.Consistent → Grafted source dest) ∧ ∀ id, Regrown source id :=
  ⟨fun _ hdest => grafted source hdest, regrown source⟩

end Damaged

/-- A couple was moved, whereby the first one lost its connection and the second one did not. Then
the first one was connected to a third one. -/
def torn (id : GraphId) : Graph (Operator .single) :=
  let third : NodeId := NodeId.first.next.next
  let g := ((couple .renewOutputs (.idle "") .first).moveInto (.empty id)).val.dest
  let g := (g.insert ⟨"c", .other, .grow, .idle "", Port.row 1, [], {}⟩).val.1
  (g.connect .outgoing ⟨.first, 0⟩ ⟨third, 0⟩).val.1

/-- The output of the first one is claimed twice. Copying stops at the second claim, after the
connection for the first one was made at both ends. -/
theorem copies_well_wired_torn :
    let source := torn ⟨2⟩
    let dest := couple (.idle "") (.idle "") ⟨3⟩
    let a : NodeId := ⟨3, by decide⟩
    let b : NodeId := ⟨4, by decide⟩
    ¬source.Consistent ∧ dest.Consistent ∧ Grafted source dest ∧ Regrown source ⟨4⟩ ∧
      (source.copyInto dest).val.2 =
        .error (.connect (.alreadyConnected (a.output 0) (b.input 0))) ∧
      (source.copyInto dest).val.1.peers .outgoing ⟨a, 0⟩ = [⟨b, 0⟩] ∧
      (source.copyInto dest).val.1.peers .incoming ⟨b, 0⟩ = [⟨a, 0⟩] := by
  intro source dest a b
  have hdest : dest.Sound := sound_couple _ _ _
  have hcopies := copies_well_wired source
  refine ⟨fun hconsistent => ?_, hdest.consistent, hcopies.1 dest hdest.consistent, hcopies.2 ⟨4⟩,
    by decide, by decide, by decide⟩
  have hcount := hconsistent.count_comm .incoming ⟨NodeId.first.next, 0⟩ ⟨.first, 0⟩
  exact absurd hcount (by decide)

end PortGraph.Graph
