import PortGraph.Proofs.Agreement

/-!
# What the events account for

A graph reports every connection that it makes, and most of those that it removes: one at a time,
with a vertex that goes away, or because a revised vertex does not record it any more. So the
connections between two ports can be counted from the journal alone, as those that were entered less
those that were struck, except for two ways of losing connections of which there is no event: all
connections of a port are removed at once, and a loop is lost in a revision.

`Booked` says what the journal of an operation leaves unsaid. By `Books`, which follow a graph from
its beginning, the journal accounts for all connections but the ones lost in these two ways.
-/

namespace PortGraph

/-! ## Entries about a link -/

/-- The two ports that are named are the ends of the link, whichever of them comes first. -/
def Link.isNamed (l : Link) (a b : Address) : Bool :=
  (a = l.output.at .outgoing && b = l.input.at .incoming) ||
    (a = l.input.at .incoming && b = l.output.at .outgoing)

/-- Two opposite ports are the ends of the link between them, and of no other. -/
theorem Link.isNamed_iff {l : Link} {d : Direction} {p q : Slot} :
    l.isNamed (p.at d) (q.at d.opposite) = true ↔ l = .between d p q := by
  obtain ⟨o, i⟩ := l
  cases d with
  | incoming =>
    simp only [isNamed, Slot.at_inj, Direction.opposite, between, mk.injEq]
    simp [and_comm, eq_comm (a := o), eq_comm (a := i)]
  | outgoing =>
    simp only [isNamed, Slot.at_inj, Direction.opposite, between, mk.injEq]
    simp [eq_comm (a := o), eq_comm (a := i)]

/-- A link is counted once where it is the only one. -/
theorem Link.count_singleton (l m : Link) : [m].count l = if l = m then 1 else 0 := by
  rw [List.count_singleton]
  by_cases h : l = m
  · simp [h]
  · simp [h, Ne.symm h]

namespace Event

/-- Graph `id` reports that the link was connected. -/
def enters (id : GraphId) (l : Link) : Event → Bool
  | connected graph a b => graph = id && l.isNamed a b
  | _ => false

/-- Graph `id` reports that the link was disconnected, or dropped in a revision. -/
def strikes (id : GraphId) (l : Link) : Event → Bool
  | disconnected graph a b => graph = id && l.isNamed a b
  | dropped graph m => graph = id && m = l
  | _ => false

end Event

/-- How often graph `id` reports that the link was connected. -/
def entered (id : GraphId) (l : Link) (journal : List Entry) : Nat :=
  (events journal).countP (Event.enters id l)

/-- How often graph `id` reports that the link was disconnected or dropped. -/
def struck (id : GraphId) (l : Link) (journal : List Entry) : Nat :=
  (events journal).countP (Event.strikes id l)

section Journals

variable (id : GraphId) (l : Link)

@[simp] theorem entered_nil : entered id l [] = 0 := rfl

@[simp] theorem struck_nil : struck id l [] = 0 := rfl

@[simp] theorem entered_append (j j' : List Entry) :
    entered id l (j ++ j') = entered id l j + entered id l j' := by
  rw [entered, events, List.filterMap_append, List.countP_append]
  rfl

@[simp] theorem struck_append (j j' : List Entry) :
    struck id l (j ++ j') = struck id l j + struck id l j' := by
  rw [struck, events, List.filterMap_append, List.countP_append]
  rfl

@[simp] theorem entered_event (e : Event) :
    entered id l [.event e] = if e.enters id l = true then 1 else 0 :=
  List.countP_singleton

@[simp] theorem struck_event (e : Event) :
    struck id l [.event e] = if e.strikes id l = true then 1 else 0 :=
  List.countP_singleton

variable {id l}

/-- A connection is entered when it is made. -/
theorem entered_connected {d : Direction} {p q : Slot} :
    entered id l [.event (.connected id (p.at d) (q.at d.opposite))] =
      if l = .between d p q then 1 else 0 := by
  simp [Event.enters, Link.isNamed_iff]

/-- A connection is struck when it is removed. -/
theorem struck_disconnected {d : Direction} {p q : Slot} :
    struck id l [.event (.disconnected id (p.at d) (q.at d.opposite))] =
      if l = .between d p q then 1 else 0 := by
  simp [Event.strikes, Link.isNamed_iff]

/-- A connection is struck when it is dropped. -/
theorem struck_dropped {m : Link} :
    struck id l [.event (.dropped id m)] = if l = m then 1 else 0 := by
  simp [Event.strikes, eq_comm]

end Journals

/-- Graph `id` reports nothing about links. -/
def Unrelated (id : GraphId) (journal : List Entry) : Prop :=
  ∀ l, entered id l journal = 0 ∧ struck id l journal = 0

theorem unrelated_nil (id : GraphId) : Unrelated id [] := fun _ => ⟨rfl, rfl⟩

theorem Unrelated.append {id : GraphId} {j j' : List Entry} (h : Unrelated id j)
    (h' : Unrelated id j') : Unrelated id (j ++ j') := fun l => by
  rw [entered_append, struck_append, (h l).1, (h l).2, (h' l).1, (h' l).2]
  exact ⟨rfl, rfl⟩

theorem unrelated_event {id : GraphId} {e : Event}
    (h : ∀ l, e.enters id l = false ∧ e.strikes id l = false) : Unrelated id [.event e] :=
  fun l => by simp [h l]

theorem unrelated_reportIf {id : GraphId} {e : Event} (condition : Bool)
    (h : ∀ l, e.enters id l = false ∧ e.strikes id l = false) :
    Unrelated id (Journaled.reportIf condition e).journal := by
  unfold Journaled.reportIf
  split
  · exact unrelated_event h
  · exact unrelated_nil id

namespace Graph

variable {φ : Flavour} {ν : Type} [Vertex φ ν]

/-! ## Booked operations -/

/-- On the way from `g` to `h` the journal accounts for all connections that are made and removed,
but for those that are removed silently. -/
structure Booked (g h : Graph ν) (journal : List Entry) (silent : Link → Nat) : Prop where
  id_eq : h.id = g.id
  consistent : h.Consistent
  balance (l : Link) :
    h.multiplicity l + struck g.id l journal + silent l = g.multiplicity l + entered g.id l journal

namespace Booked

variable {f g h : Graph ν} {j j' : List Entry} {u u' : Link → Nat}

theorem trans (hfg : Booked f g j u) (hgh : Booked g h j' u') :
    Booked f h (j ++ j') fun l => u l + u' l where
  id_eq := hgh.id_eq.trans hfg.id_eq
  consistent := hgh.consistent
  balance l := by
    have hfirst := hfg.balance l
    have hrest := hgh.balance l
    rw [hfg.id_eq] at hrest
    rw [struck_append, entered_append]
    omega

/-- Nothing is entered where no list of opposites changes. -/
theorem of_peers_eq (hg : g.Consistent) (hid : h.id = g.id)
    (hpeers : ∀ d s, h.peers d s = g.peers d s) (hj : Unrelated g.id j) :
    Booked g h j fun _ => 0 where
  id_eq := hid
  consistent := hg.of_peers_eq hpeers
  balance l := by
    rw [(hj l).1, (hj l).2, multiplicity, hpeers]
    rfl

theorem refl (hg : g.Consistent) (hj : Unrelated g.id j) : Booked g g j fun _ => 0 :=
  .of_peers_eq hg rfl (fun _ _ => rfl) hj

/-- Steps of which each is booked in full are booked in full one after the other. -/
theorem foldlM {α : Type} {step : Graph ν → α → Journaled (Graph ν)}
    (hstep : ∀ g, g.Consistent → ∀ a, Booked g (step g a).val (step g a).journal fun _ => 0)
    (hg : g.Consistent) (as : List α) :
    Booked g (as.foldlM step g).val (as.foldlM step g).journal fun _ => 0 := by
  induction as generalizing g with
  | nil => exact .refl hg (unrelated_nil g.id)
  | cons a rest ih =>
    have hfirst := hstep g hg a
    rw [List.foldlM_cons]
    exact hfirst.trans (ih hfirst.consistent)

end Booked

variable [LawfulPorts φ ν] {g : Graph ν}

/-! ### Single connections -/

/-- A connection that is made is entered. -/
theorem booked_connect (hg : g.Consistent) (d : Direction) (p q : Slot) :
    Booked g (g.connect d p q).val.1 (g.connect d p q).journal fun _ => 0 := by
  have hconsistent := hg.connect d p q
  have houtcome := g.connect_outcome d p q
  generalize g.connect d p q = c at hconsistent houtcome ⊢
  cases houtcome with
  | near | far | found => exact .refl hg (unrelated_nil g.id)
  | mismatch => exact .refl hg (unrelated_event fun _ => ⟨rfl, rfl⟩)
  | joined hp hq =>
    refine ⟨rfl, hconsistent, fun l => ?_⟩
    have hcount : (g.join d p q).multiplicity l =
        g.multiplicity l + if l = .between d p q then 1 else 0 := by
      have hl : Link.between .outgoing l.output l.input = l := rfl
      rw [multiplicity, peers_join (admits_between_iff.mpr ⟨hp, hq⟩), List.count_append,
        Link.count_farEnds, hl, Link.count_singleton]
      rfl
    change (g.join d p q).multiplicity l + struck g.id l [_] + 0 = _ + entered g.id l [_]
    rw [hcount, entered_connected]
    rfl

/-- A connection that is removed is struck. -/
theorem booked_disconnect (hg : g.Consistent) (d : Direction) (p q : Slot) :
    Booked g (g.disconnect d p q).val.1 (g.disconnect d p q).journal fun _ => 0 := by
  have hremoval := Removal.disconnect hg d p q
  have houtcome := g.disconnect_outcome d p q
  generalize g.disconnect d p q = c at hremoval houtcome ⊢
  cases houtcome with
  | near | far | unrelated => exact .refl hg (unrelated_nil g.id)
  | mismatch => exact .refl hg (unrelated_event fun _ => ⟨rfl, rfl⟩)
  | parted hp hq =>
    refine ⟨rfl, hremoval.consistent hg, fun l => ?_⟩
    have hcount : (g.part d p q).multiplicity l =
        g.multiplicity l - if l = .between d p q then 1 else 0 := by
      have hl : Link.between .outgoing l.output l.input = l := rfl
      have hleft := hremoval.count .outgoing l.output l.input
      rwa [hl, Link.count_singleton] at hleft
    have hpos : l = .between d p q → 0 < g.multiplicity l := by
      rintro rfl
      rw [← hg.count_peers]
      exact List.count_pos_iff.mpr ((unlinkCheck_answers hp).mp rfl)
    change (g.part d p q).multiplicity l + struck g.id l [_] + 0 = _ + entered g.id l [_]
    rw [hcount, struck_disconnected]
    split
    · next hl => exact Nat.sub_add_cancel (hpos hl)
    · rfl

/-! ### Connections of vertices that go away -/

/-- To sever ports is to disconnect them. What goes wrong is no matter of the ledger. -/
theorem booked_sever (hg : g.Consistent) (d : Direction) (p q : Slot) :
    Booked g (g.sever d p q).val (g.sever d p q).journal fun _ => 0 := by
  have hfirst := booked_disconnect hg d p q
  have hfailure (id : GraphId) : ∃ j, Unrelated id j ∧
      (g.sever d p q).journal = (g.disconnect d p q).journal ++ j := by
    rw [sever, Journaled.journal_bind]
    refine ⟨_, ?_, rfl⟩
    rcases (g.disconnect d p q).val with ⟨h, e | x⟩
    · exact unrelated_event fun _ => ⟨rfl, rfl⟩
    · exact unrelated_nil id
  obtain ⟨j, hj, hjournal⟩ := hfailure (g.disconnect d p q).val.1.id
  rw [val_sever, hjournal]
  exact hfirst.trans (.refl hfirst.consistent hj)

/-- Every connection of a vertex that is severed is struck, and struck once. -/
theorem booked_severWhere (hg : g.Consistent) (id : NodeId) (keep : NodeId → Bool) :
    Booked g (g.severWhere id keep).val (g.severWhere id keep).journal fun _ => 0 := by
  unfold severWhere
  split
  · exact .refl hg (unrelated_nil _)
  · have hin := Booked.foldlM (fun g hg (c : Slot × Slot) => booked_sever hg .incoming c.1 c.2) hg
      ((Vertex.contacts .incoming id ‹ν›).filter fun c => !keep c.2.node)
    exact hin.trans (.foldlM (fun g hg c => booked_sever hg .outgoing c.1 c.2) hin.consistent _)

/-- To take a vertex away that was severed from all others changes no list of opposites. -/
theorem peers_drop_severed (hg : g.Consistent) (id : NodeId) (d : Direction) (s : Slot) :
    ({ (g.severWhere id fun _ => false).val with
        vertices := (g.severWhere id fun _ => false).val.vertices.erase id } : Graph ν).peers d s =
      (g.severWhere id fun _ => false).val.peers d s := by
  have hfind := (g.severWhere id fun _ => false).val.find?_drop id s.node
  by_cases hs : s.node = id
  · rw [if_pos hs] at hfind
    rw [peers_eq_nil_of_find? hfind, peers_severWhere_own hg d hs]
  · rw [if_neg hs] at hfind
    exact peers_congr (port?_congr hfind)

/-- To take a vertex away that was severed from all others is no matter of the ledger. -/
theorem booked_drop (hg : g.Consistent) {id : NodeId} (h : g.contains id = true) {e : Event}
    (he : ∀ graph l, e.enters graph l = false ∧ e.strikes graph l = false) :
    Booked (g.severWhere id fun _ => false).val (g.erase id).val.1 [.event e] fun _ => 0 := by
  rw [val_erase_of_contains h]
  exact .of_peers_eq (booked_severWhere hg id _).consistent rfl (peers_drop_severed hg id)
    (unrelated_event (he _))

/-- Every connection of a vertex that is destroyed is struck. -/
theorem booked_erase (hg : g.Consistent) (id : NodeId) :
    Booked g (g.erase id).val.1 (g.erase id).journal fun _ => 0 := by
  by_cases h : g.contains id = true
  · have hdrop := booked_drop hg h (e := .erased (g.severWhere id fun _ => false).val.id id)
      fun _ _ => ⟨rfl, rfl⟩
    have hjournal : (g.erase id).journal = (g.severWhere id fun _ => false).journal ++
        [.event (.erased (g.severWhere id fun _ => false).val.id id)] := by
      rw [erase, if_pos h]
      rfl
    rw [hjournal]
    exact (booked_severWhere hg id _).trans hdrop
  · rw [erase, if_neg h]
    exact .refl hg (unrelated_nil _)

theorem booked_retain {σ : Type} (hg : g.Consistent) (keep : NodeId → ν → StateM σ Bool) (s : σ) :
    Booked g (g.retain keep s).val.1 (g.retain keep s).journal fun _ => 0 := by
  have hstep (g : Graph ν) (hg : g.Consistent) (id : NodeId) :
      Booked g (Prod.fst <$> g.erase id).val (Prod.fst <$> g.erase id).journal fun _ => 0 := by
    rw [Journaled.val_map, Journaled.journal_map]
    exact booked_erase hg id
  have hall := Booked.foldlM hstep hg ((g.rejected keep).run s).1
  exact hall.trans (.refl hall.consistent (unrelated_nil _))

/-! ### Connections that go silently -/

/-- The connections of a port are removed all at once, and none of them is struck. -/
theorem booked_disconnectAll (hg : g.Consistent) (d : Direction) (p : Slot) :
    Booked g (g.disconnectAll d p).val.1 (g.disconnectAll d p).journal
      fun l => if l.side d = p then g.multiplicity l else 0 := by
  have hremoval := g.removal_disconnectAll d p
  have hj : Unrelated g.id (g.disconnectAll d p).journal := by
    unfold disconnectAll
    split
    · exact unrelated_nil _
    · split
      · exact unrelated_nil _
      · exact unrelated_event fun _ => ⟨rfl, rfl⟩
  refine ⟨hremoval.rewired.id_eq, hremoval.consistent hg, fun l => ?_⟩
  have hgone : ((g.peers d p).map (Link.between d p)).count l =
      if l.side d = p then g.multiplicity l else 0 := by
    rw [← Link.between_side d l, ← Link.count_farEnds, Link.farEnds_map_between, Link.side_between]
    by_cases hl : l.side d = p
    · rw [if_pos hl, if_pos hl.symm, ← hl, hg.count_peers, Link.between_side]
    · rw [if_neg hl, if_neg (Ne.symm hl), List.count_nil]
  have hleft : (g.disconnectAll d p).val.1.multiplicity l =
      g.multiplicity l - if l.side d = p then g.multiplicity l else 0 := by
    rw [← hgone]
    exact hremoval.count .outgoing l.output l.input
  rw [hleft, (hj l).1, (hj l).2]
  split
  · omega
  · rfl

omit [LawfulPorts φ ν] in
/-- Lost links are struck, but for loops. -/
theorem struck_foldlM_dropLost (id : NodeId) (l : Link) (ls : List Link) (g : Graph ν) :
    entered g.id l (ls.foldlM (dropLost id) g).journal = 0 ∧
      struck g.id l (ls.foldlM (dropLost id) g).journal =
        if l.isLoopAt id = true then 0 else ls.count l := by
  induction ls generalizing g with
  | nil => simp
  | cons m rest ih =>
    have hfirst : (dropLost id g m).val.id = g.id ∧ entered g.id l (dropLost id g m).journal = 0 ∧
        struck g.id l (dropLost id g m).journal =
          if l.isLoopAt id = true then 0 else [m].count l := by
      unfold dropLost
      rw [Link.count_singleton]
      by_cases hloop : m.isLoopAt id = true
      · rw [if_pos hloop]
        refine ⟨rfl, rfl, ?_⟩
        by_cases hl : l = m
        · simp [hl, hloop]
        · simp [hl]
      · have hmismatch (b : Bool) :
            Unrelated g.id (Journaled.reportIf b (.dropMismatch m)).journal :=
          unrelated_reportIf b fun _ => ⟨rfl, rfl⟩
        rw [if_neg hloop]
        refine ⟨rfl, ?_, ?_⟩
        · exact (entered_append g.id l _ _).trans (by rw [(hmismatch _ l).1]; rfl)
        · refine (struck_append g.id l _ _).trans ?_
          refine (congrArg (_ + ·) struck_dropped).trans ?_
          rw [(hmismatch _ l).2]
          by_cases hl : l = m
          · simp [hl, hloop]
          · simp [hl]
    obtain ⟨hid, hentered, hstruck⟩ := hfirst
    obtain ⟨hentered', hstruck'⟩ := ih (dropLost id g m).val
    rw [hid] at hentered' hstruck'
    have hcount : (m :: rest).count l = [m].count l + rest.count l :=
      (congrArg (List.count l) List.singleton_append.symm).trans List.count_append
    rw [List.foldlM_cons, Journaled.journal_bind, entered_append, struck_append, hentered,
      hentered', hstruck, hstruck', hcount]
    refine ⟨rfl, ?_⟩
    split <;> rfl

/-! ### Weighted vertices -/

section Weighted

variable {ω : Type} {g : Graph (Node φ ω)}

/-- A vertex comes without connections. -/
theorem booked_insert (hg : g.Consistent) (v : Node φ ω) :
    Booked g (g.insert v).val.1 (g.insert v).journal fun _ => 0 := by
  refine .of_peers_eq hg ?_ (g.peers_insert v) ?_
  · unfold insert adopt
    simp only
    split <;> rfl
  · unfold insert adopt
    simp only
    split
    · exact unrelated_nil _
    · exact unrelated_event fun _ => ⟨rfl, rfl⟩

/-- A vertex is handed out as it is destroyed, after its connections were struck. -/
theorem booked_release (hg : g.Consistent) (id : NodeId) :
    Booked g (g.release id).val.1 (g.release id).journal fun _ => 0 := by
  rw [val_release g id hg]
  by_cases h : g.contains id = true
  · have hdrop := booked_drop hg h (e := .released (g.severWhere id fun _ => false).val.id id)
      fun _ _ => ⟨rfl, rfl⟩
    have hunbind (f : Graph (Node φ ω)) : (f.unbind id).journal = [] := by
      unfold unbind
      split <;> rfl
    have hjournal : (g.release id).journal = (g.severWhere id fun _ => false).journal ++
        [.event (.released (g.severWhere id fun _ => false).val.id id)] := by
      rw [release, if_pos h]
      simp only [Journaled.journal_bind, Journaled.journal_report, hunbind, List.append_nil]
    rw [hjournal]
    exact (booked_severWhere hg id _).trans hdrop
  · rw [val_erase_of_not_contains h, release, if_neg h]
    exact .refl hg (unrelated_nil _)

/-- The journal of a repair: what is said about the vertex, then what is dropped. -/
theorem journal_repair (g : Graph (Node φ ω)) (id : NodeId) (v w : Node φ ω) :
    (g.repair id (Vertex.links .incoming id v) (Vertex.links .outgoing id v) w).journal =
      (g.rebind id w).journal ++
        ((Journaled.reportIf ((settlement id v (g.rebind id w).val).hasUnmanaged id)
          (.unmanagedLinks g.id id)).journal ++
        ((settlement id v (g.rebind id w).val).lost.foldlM (dropLost id)
          ((settlement id v (g.rebind id w).val).kept.foldl (restore id)
            (g.seated id (g.rebind id w).val))).journal) := rfl

/-- What a repair says about the vertex is no matter of the ledger. -/
theorem unrelated_rebind (g : Graph (Node φ ω)) (id : NodeId) (w : Node φ ω) :
    Unrelated g.id (g.rebind id w).journal := by
  unfold rebind
  split
  · exact unrelated_nil _
  · exact unrelated_event fun _ => ⟨rfl, rfl⟩

/-- Of the connections that a revision takes away all are struck, but for loops. -/
theorem booked_modify {ρ : Type} (hg : g.Consistent) (id : NodeId)
    {f : Node φ ω → Journaled (Node φ ω × ρ)} (hf : ∀ v, Unrelated g.id (f v).journal) :
    Booked g (g.modify id f).val.1 (g.modify id f).journal fun l =>
      if l.isLoopAt id = true then g.multiplicity l - (g.modify id f).val.1.multiplicity l
      else 0 := by
  cases hv : g.find? id with
  | none =>
    rw [modify, hv]
    refine ⟨rfl, hg, fun l => ?_⟩
    simp
  | some v =>
    have hr := repaired_repair hg hv (f v).val.1
    have hval := congrArg Prod.fst (val_modify hv f)
    generalize hu : (g.rebind id (f v).val.1).val = u at hr
    have htotal {l : Link} (hl : l.touches id = true) := (count_settlement hg hv u hl).2
    have hlost : ∀ l ∈ (settlement id v u).lost, l.touches id = true :=
      fun l hl => touches_of_mem_settlement hg hv u (.inr hl)
    have hcount (l : Link) : (g.modify id f).val.1.multiplicity l +
        (settlement id v u).lost.count l = g.multiplicity l := by
      rw [hval]
      by_cases hl : l.touches id = true
      · rw [← htotal hl, ← hr.count_of_settled hg (htotal hl) .outgoing]
        rfl
      · rw [← hr.count_of_not_touches hg hl hlost .outgoing,
          List.count_eq_zero.mpr fun hmem => hl (hlost l hmem)]
        rfl
    have hid : ((settlement id v u).kept.foldl (restore id) (g.seated id u)).id = g.id :=
      (foldl_restore (fun l hl d hd => hasPort_of_mem_kept hg hv u hl hd)
        (room_for_kept hg hv u)).1.id_eq
    have hjournal : (g.modify id f).journal = (f v).journal ++
        ((g.repair id (Vertex.links .incoming id v) (Vertex.links .outgoing id v)
          (f v).val.1).journal ++ []) := by
      rw [modify, hv]
      rfl
    have hsilence := ((hf v).append (unrelated_rebind g id (f v).val.1)).append
      (unrelated_reportIf (e := .unmanagedLinks g.id id) ((settlement id v u).hasUnmanaged id)
        fun _ => ⟨rfl, rfl⟩)
    refine ⟨hval ▸ hr.id_eq, hg.modify id f, fun l => ?_⟩
    obtain ⟨hentered, hstruck⟩ := struck_foldlM_dropLost id l (settlement id v u).lost
      ((settlement id v u).kept.foldl (restore id) (g.seated id u))
    obtain ⟨hquiet, hquiet'⟩ := hsilence l
    rw [hid] at hentered hstruck
    rw [hjournal, journal_repair, hu, List.append_nil, ← List.append_assoc, ← List.append_assoc,
      entered_append, struck_append, hquiet, hquiet', hentered, hstruck]
    have hleft := hcount l
    split <;> omega

end Weighted

end Graph

/-! ## Books -/

open PortGraph.Graph

/-- What is done to a graph of weighted vertices, the graph that comes of it, the journal, and how
many connections of each link are removed silently. A function that revises a vertex may do with it
what it likes, but has nothing of the graph to report. -/
inductive Deed {φ : Flavour} {ω : Type} (g : Graph (Node φ ω)) :
    Graph (Node φ ω) → List Entry → (Link → Nat) → Prop where
  | insert (v : Node φ ω) : Deed g (g.insert v).val.1 (g.insert v).journal fun _ => 0
  | insertCopy (v : Node φ ω) : Deed g (g.insertCopy v).val.1 (g.insertCopy v).journal fun _ => 0
  | connect (d : Direction) (p q : Slot) :
    Deed g (g.connect d p q).val.1 (g.connect d p q).journal fun _ => 0
  | link (l : Link) : Deed g (g.link l).val.1 (g.link l).journal fun _ => 0
  | disconnect (d : Direction) (p q : Slot) :
    Deed g (g.disconnect d p q).val.1 (g.disconnect d p q).journal fun _ => 0
  | disconnectAll (d : Direction) (p : Slot) :
    Deed g (g.disconnectAll d p).val.1 (g.disconnectAll d p).journal
      fun l => if l.side d = p then g.multiplicity l else 0
  | erase (id : NodeId) : Deed g (g.erase id).val.1 (g.erase id).journal fun _ => 0
  | release (id : NodeId) : Deed g (g.release id).val.1 (g.release id).journal fun _ => 0
  | retain {σ : Type} (keep : NodeId → Node φ ω → StateM σ Bool) (s : σ) :
    Deed g (g.retain keep s).val.1 (g.retain keep s).journal fun _ => 0
  | modify {ρ : Type} (id : NodeId) (f : Node φ ω → Journaled (Node φ ω × ρ))
    (hf : ∀ v, Unrelated g.id (f v).journal) :
    Deed g (g.modify id f).val.1 (g.modify id f).journal fun l =>
      if l.isLoopAt id = true then g.multiplicity l - (g.modify id f).val.1.multiplicity l else 0

/-- Whatever is done, the journal accounts for the connections that do not go silently. -/
theorem Deed.booked {φ : Flavour} {ω : Type} {g h : Graph (Node φ ω)} {j : List Entry}
    {u : Link → Nat} (hd : Deed g h j u) (hg : g.Consistent) : Booked g h j u := by
  cases hd with
  | insert v => exact booked_insert hg v
  | insertCopy v => exact booked_insert hg (Vertex.copy v)
  | connect d p q => exact booked_connect hg d p q
  | link l => exact booked_connect hg .outgoing l.output l.input
  | disconnect d p q => exact booked_disconnect hg d p q
  | disconnectAll d p => exact booked_disconnectAll hg d p
  | erase id => exact booked_erase hg id
  | release id => exact booked_release hg id
  | retain keep s => exact booked_retain hg keep s
  | modify id f hf => exact booked_modify hg id hf

/-- The books of graph `id` since it was created: what became of it, its journal, and how many
connections of each link were removed silently. -/
inductive Books {φ : Flavour} {ω : Type} (id : GraphId) :
    Graph (Node φ ω) → List Entry → (Link → Nat) → Prop where
  | start : Books id (.empty id) [] fun _ => 0
  | next {g h : Graph (Node φ ω)} {j j' : List Entry} {u u' : Link → Nat} (hg : Books id g j u)
    (hd : Deed g h j' u') : Books id h (j ++ j') fun l => u l + u' l

namespace Books

variable {φ : Flavour} {ω : Type} {id : GraphId} {g : Graph (Node φ ω)} {j : List Entry}
  {u : Link → Nat}

theorem booked (h : Books id g j u) : Booked (.empty id) g j u := by
  induction h with
  | start => exact .refl (consistent_of_vertices_eq_empty rfl) (unrelated_nil id)
  | next _ hd ih => exact ih.trans (hd.booked ih.consistent)

/-- At every time, and at either end, a graph has as many connections of a link as were entered,
less those that were struck and those that went silently: with all others of a port, or as loops in
a revision. -/
theorem entered_eq (h : Books id g j u) (l : Link) (d : Direction) :
    entered id l j = (g.peers d (l.side d)).count (l.side d.opposite) + struck id l j + u l := by
  have hbooked := h.booked
  have hempty : (Graph.empty id : Graph (Node φ ω)).multiplicity l = 0 := by
    rw [Graph.multiplicity, peers_of_vertices_eq_empty rfl, List.count_nil]
  have hbalance := hbooked.balance l
  rw [hempty, Nat.zero_add] at hbalance
  rw [hbooked.consistent.count_peers, Link.between_side]
  exact hbalance.symm

/-- Renews the inputs of a vertex. -/
def renewInputs (v : Node φ ω) : Journaled (Node φ ω × Unit) :=
  pure ({ v with inputs := Port.row v.inputs.length }, ())

/-- A vertex is connected to itself and twice to another one. One of these two connections is
removed, and then the vertex is revised, so that it loses its inputs: of the connections to the
other one the journal tells in full, but not of the end of the loop. -/
theorem entered_eq_revised :
    let output : Slot := ⟨.first, 0⟩
    let loop : Link := ⟨output, ⟨.first, 0⟩⟩
    let other : Link := ⟨output, ⟨NodeId.first.next, 0⟩⟩
    ∃ (g : Graph (Node .multi Unit)) (j : List Entry) (u : Link → Nat), Books ⟨1⟩ g j u ∧
      (∀ l d, entered ⟨1⟩ l j =
        (g.peers d (l.side d)).count (l.side d.opposite) + struck ⟨1⟩ l j + u l) ∧
      (entered ⟨1⟩ other j = 2 ∧ struck ⟨1⟩ other j = 1 ∧ u other = 0) ∧
      entered ⟨1⟩ loop j = 1 ∧ struck ⟨1⟩ loop j = 0 ∧ u loop = 1 := by
  intro output loop other
  have hempty : Books ⟨1⟩ (.empty ⟨1⟩ : Graph (Node .multi Unit)) [] fun _ => 0 := start
  have hstored := (hempty.next (.insert (Node.new () 1 1))).next (.insert (Node.new () 1 0))
  have hconnected := ((hstored.next (.link loop)).next (.link other)).next (.link other)
  have hbooks := (hconnected.next (.disconnect .incoming other.input output)).next
    (.modify .first renewInputs fun _ => unrelated_nil _)
  exact ⟨_, _, _, hbooks, hbooks.entered_eq, by decide, by decide⟩

/-- The ledger is not complete: of a loop the journal does not tell that it went with the
connections of its output, or was lost in a revision. -/
theorem entered_ne_of_silence :
    let loop : Link := ⟨⟨.first, 0⟩, ⟨.first, 0⟩⟩
    (∃ (g : Graph (Node .multi Unit)) (j : List Entry) (u : Link → Nat), Books ⟨1⟩ g j u ∧
      g.multiplicity loop = 0 ∧ entered ⟨1⟩ loop j = 1 ∧ struck ⟨1⟩ loop j = 0) ∧
    ∃ (g : Graph (Node .single Unit)) (j : List Entry) (u : Link → Nat), Books ⟨1⟩ g j u ∧
      g.multiplicity loop = 0 ∧ entered ⟨1⟩ loop j = 1 ∧ struck ⟨1⟩ loop j = 0 := by
  intro loop
  have hlooped (φ : Flavour) :=
    ((start : Books ⟨1⟩ (.empty ⟨1⟩ : Graph (Node φ Unit)) [] fun _ => 0).next
      (.insert (Node.new () 1 1))).next (.link loop)
  have hfreed := (hlooped .multi).next (.disconnectAll .outgoing loop.output)
  have hrevised := (hlooped .single).next
    (.modify .first renewInputs fun _ => unrelated_nil _)
  exact ⟨⟨_, _, _, hfreed, by decide, by decide, by decide⟩,
    _, _, _, hrevised, by decide, by decide, by decide⟩

end Books

end PortGraph
