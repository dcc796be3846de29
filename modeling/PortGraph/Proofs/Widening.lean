import PortGraph.Proofs.Flavours

/-!
# Operations on graphs of either flavour

Whether a graph is widened before an operation or after it comes to the same, as long as its single
ports do not refuse. Operations look at ports through their lists of opposites; the flavour only
tells in `Port.checkLink`, `Port.checkUnlink` and `Port.link`.

A connection that single ports accept is accepted by multiple ports (`connect_widen`). To remove a
connection from a single port that is connected elsewhere is an error, and for a multiple port it is
not; the graph stays as it is both times (`disconnect_widen_fst`), and the answers differ in this
one case (`disconnect_widen_snd`). Copies are connected anew, so that single ports might refuse;
where the graph that is copied is consistent they do not (`clone_widen`, `copyInto_widen`).
-/

namespace PortGraph

namespace Graph

variable {φ : Flavour} {ω : Type} {g : Graph (Node φ ω)}

/-! ## Connecting and disconnecting -/

/-- A connection is recorded alike where single ports have room for it. -/
theorem widen_join {d : Direction} {p q : Slot} (h : g.Admits (.between d p q)) :
    (g.join d p q).widen = g.widen.join d p q := by
  have hp := h d
  have hq := h d.opposite
  rw [Link.side_between] at hp
  rw [Link.side_opposite_between] at hq
  have hroom {e : Direction} {s : Slot} (hs : φ = .multi ∨ g.peers e s = []) (P : Port φ)
      (hP : g.port? e s = some P) : φ = .multi ∨ P.opposites = [] := by
    rwa [peers_eq_of_port? hP] at hs
  rw [join, join, ← widen_adjustPort fun P hP => Port.widen_link (hroom hp.2 P hP)]
  refine widen_adjustPort fun Q hQ => Port.widen_link (hroom hq.2 Q ?_)
  -- the first change does not reach the port of the second
  rwa [port?_adjustPort, if_neg fun h => d.opposite_ne h.1] at hQ

/-- What single ports accept, multiple ports do. -/
theorem connect_widen {d : Direction} {p q : Slot} (h : (g.connect d p q).val.2 = .ok true) :
    (g.widen.connect d p q).val = ((g.connect d p q).val.1.widen, .ok true) := by
  have hadmits : g.Admits (.between d p q) :=
    Classical.not_not.mp fun hnot => (connect_of_not_admits hnot).2 h
  rw [connect_of_admits hadmits, connect_of_admits hadmits.widen, widen_join hadmits]

theorem widen_unlink (g : Graph (Node φ ω)) (d : Direction) (s t : Slot) :
    (g.adjustPort d s (·.unlink t)).widen = g.widen.adjustPort d s (·.unlink t) :=
  widen_adjustPort fun _ _ => rfl

/-- Either flavour removes a connection where both ends record it, and nowhere else. -/
theorem disconnect_widen_fst (d : Direction) (p q : Slot) :
    (g.widen.disconnect d p q).val.1 = (g.disconnect d p q).val.1.widen := by
  by_cases h : g.Links (.between d p q)
  · rw [disconnect_of_links h, disconnect_of_links (links_widen.mpr h)]
    simp only [part, widen_unlink]
  · rw [(disconnect_of_not_links h).1, (disconnect_of_not_links (mt links_widen.mp h)).1]

/-- A port that can be asked about a connection answers alike. -/
theorem unlinkCheck_widen (d : Direction) (s t : Slot) :
    g.widen.unlinkCheck d s t = g.unlinkCheck d s t ∨
      g.unlinkCheck d s t = .error (.inconsistentConnection (s.at d) (t.at d.opposite)) ∧
        g.widen.unlinkCheck d s t = .ok false := by
  unfold unlinkCheck
  rw [port_widen]
  cases g.port d s with
  | error e => exact .inl rfl
  | ok P => exact P.checkUnlink_widen d s t

/-- What a disconnection answers, by what the two ends say to it. -/
def verdict (mismatch : ConnectError) :
    Except ConnectError Bool → Except ConnectError Bool → Except ConnectError Bool
  | .error e, _ => .error e
  | .ok _, .error e => .error e
  | .ok x, .ok y => if x = y then .ok x else .error mismatch

theorem disconnect_snd {ν : Type} [Vertex φ ν] (g : Graph ν) (d : Direction) (p q : Slot) :
    (g.disconnect d p q).val.2 = verdict (.inconsistentConnection (p.at d) (q.at d.opposite))
      (g.unlinkCheck d p q) (g.farCheck d.opposite q p) := by
  have houtcome := g.disconnect_outcome d p q
  generalize g.disconnect d p q = c at houtcome ⊢
  cases houtcome with
  | near hp => rw [hp]; rfl
  | far hp hq => rw [hp, hq]; rfl
  | parted hp hq => rw [hp, hq]; rfl
  | unrelated hp hq => rw [hp, hq]; rfl
  | @mismatch x hp hq => rw [hp, hq]; cases x <;> rfl

/-- What is answered to a disconnection by single ports, and by multiple ones. -/
inductive DisconnectAnswers (g : Graph (Node φ ω)) (d : Direction) (p q : Slot) :
    Except ConnectError Bool → Except ConnectError Bool → Prop where
  | same (answer : Except ConnectError Bool) : DisconnectAnswers g d p q answer answer
  /-- A single port is connected elsewhere. -/
  | unrelated : DisconnectAnswers g d p q
      (.error (.inconsistentConnection (p.at d) (q.at d.opposite))) (.ok false)
  /-- A single port is connected elsewhere, and what it is to be disconnected from does not exist.
  Multiple ports only complain of that. -/
  | unknown {e : ConnectError} (he : g.port d.opposite q = .error e) : DisconnectAnswers g d p q
      (.error (.inconsistentConnection (p.at d) (q.at d.opposite))) (.error e)

/-- The answers to a disconnection differ at most where a single port is connected elsewhere. -/
theorem disconnect_widen_snd (d : Direction) (p q : Slot) :
    DisconnectAnswers g d p q (g.disconnect d p q).val.2 (g.widen.disconnect d p q).val.2 := by
  have hfar : g.widen.farCheck d.opposite q p = g.farCheck d.opposite q p := by
    rw [farCheck, opposites_widen, farCheck]
  rw [disconnect_snd, disconnect_snd, hfar]
  rcases unlinkCheck_widen (g := g) d p q with hsame | ⟨helsewhere, hnot⟩
  · rw [hsame]
    exact .same _
  · rw [helsewhere, hnot]
    cases hq : g.farCheck d.opposite q p with
    | ok x =>
      cases x with
      | false => exact .unrelated
      | true => exact .same _
    | error e =>
      refine .unknown ?_
      unfold farCheck opposites at hq
      cases hport : g.port d.opposite q with
      | ok Q => rw [hport] at hq; cases hq
      | error e' => rw [hport] at hq; cases hq; rfl

/-! ### Removing many connections -/

theorem forgetAt_widen (g : Graph (Node φ ω)) (d : Direction) (near : Slot) (fars : List Slot) :
    g.widen.forgetAt d near fars =
      ((g.forgetAt d near fars).1.widen, (g.forgetAt d near fars).2) := by
  induction fars generalizing g with
  | nil => rfl
  | cons far rest ih =>
    simp only [forgetAt, records_widen]
    rw [← widen_unlink, ih]

theorem disconnectAll_widen (d : Direction) (p : Slot) : (g.widen.disconnectAll d p).val =
    ((g.disconnectAll d p).val.1.widen, (g.disconnectAll d p).val.2) := by
  rw [disconnectAll, opposites_widen, disconnectAll]
  cases g.opposites d p with
  | error e => rfl
  | ok fars =>
    simp only
    rw [← widen_adjustPort (f := Port.clear) fun _ _ => rfl, forgetAt_widen]
    generalize (g.adjustPort d p Port.clear).forgetAt d.opposite p fars = left
    obtain ⟨h, _ | far⟩ := left <;> rfl

theorem sever_widen (g : Graph (Node φ ω)) (d : Direction) (p q : Slot) :
    (g.widen.sever d p q).val = (g.sever d p q).val.widen := by
  rw [val_sever, disconnect_widen_fst, val_sever]

theorem severWhere_widen (g : Graph (Node φ ω)) (id : NodeId) (keep : NodeId → Bool) :
    (g.widen.severWhere id keep).val = (g.severWhere id keep).val.widen := by
  rw [severWhere, find?_widen, severWhere]
  cases g.find? id with
  | none => rfl
  | some v =>
    have hsever (d : Direction) (g : Graph (Node φ ω)) (cs : List (Slot × Slot)) :
        cs.foldl (fun g c => (g.sever d c.1 c.2).val) g.widen =
          (cs.foldl (fun g c => (g.sever d c.1 c.2).val) g).widen :=
      List.foldl_hom widen fun g c => g.sever_widen d c.1 c.2
    simp only [Option.map_some, Node.contacts_widen, Journaled.val_bind, Journaled.val_foldlM]
    rw [hsever, hsever]

/-! ## Inserting and removing vertices -/

theorem widen_store (g : Graph (Node φ ω)) (v : Node φ ω) :
    (g.store v).widen = g.widen.store v.widen := by
  refine ext_find? rfl rfl fun k => ?_
  rw [find?_widen, find?_store, find?_store, find?_widen]
  change Option.map _ (if k = g.next then _ else _) = if k = g.next then _ else _
  split <;> rfl

theorem adopt_widen (v : Node φ ω) :
    (g.widen.adopt v.widen).val = ((g.adopt v).val.1.widen, (g.adopt v).val.2) := by
  by_cases h : g.contains g.next = true
  · have h' : g.widen.contains g.widen.next = true := by rwa [contains_widen]
    rw [adopt_of_contains h, adopt_of_contains h']
    rfl
  · have h' : ¬g.widen.contains g.widen.next = true := by rwa [contains_widen]
    rw [adopt_of_not_contains h, adopt_of_not_contains h', widen_store]
    rfl

theorem insert_widen (v : Node φ ω) :
    (g.widen.insert v.widen).val = ((g.insert v).val.1.widen, (g.insert v).val.2) := by
  rw [insert, ← Node.widen_clearLinks, adopt_widen, insert]

theorem insertCopy_widen (v : Node φ ω) :
    (g.widen.insertCopy v.widen).val = ((g.insertCopy v).val.1.widen, (g.insertCopy v).val.2) := by
  rw [insertCopy, ← Node.widen_copy, insert_widen, insertCopy]

theorem widen_drop (g : Graph (Node φ ω)) (id : NodeId) :
    ({ g with vertices := g.vertices.erase id } : Graph (Node φ ω)).widen =
      { g.widen with vertices := g.widen.vertices.erase id } := by
  refine ext_find? rfl rfl fun k => ?_
  rw [find?_widen, find?_drop, find?_drop, find?_widen]
  split <;> rfl

theorem unbind_widen (g : Graph (Node φ ω)) (id : NodeId) : (g.widen.unbind id).val =
    ((g.unbind id).val.1.widen, (g.unbind id).val.2.map Node.widen) := by
  rw [unbind, find?_widen, unbind]
  cases g.find? id with
  | none => rfl
  | some v =>
    rw [Option.map_some]
    simp only [Journaled.val_bind, Journaled.val_pure, widen_drop]
    rfl

theorem erase_widen (g : Graph (Node φ ω)) (id : NodeId) :
    (g.widen.erase id).val = ((g.erase id).val.1.widen, (g.erase id).val.2) := by
  rw [erase, contains_widen, erase]
  split
  · simp only [Journaled.val_bind, Journaled.val_pure, severWhere_widen, widen_drop]
  · rfl

theorem release_widen (id : NodeId) : (g.widen.release id).val =
    ((g.release id).val.1.widen, (g.release id).val.2.map Node.widen) := by
  rw [release, contains_widen, release]
  split
  · simp only [Journaled.val_bind, severWhere_widen, unbind_widen]
  · rfl

theorem interview_widen {σ : Type} (keep : NodeId → Node .multi ω → StateM σ Bool)
    (es : List (NodeId × Node φ ω)) (s : σ) :
    (interview keep (es.map fun e => (e.1, e.2.widen))).run s =
      (interview (fun k v => keep k v.widen) es).run s := by
  induction es generalizing s with
  | nil => rfl
  | cons e rest ih =>
    rw [List.map_cons, run_interview_cons, run_interview_cons, ih]

/-- Vertices are rejected alike by questions that cannot tell the flavours apart. -/
theorem rejected_widen {σ : Type} (keep : NodeId → Node .multi ω → StateM σ Bool) (s : σ) :
    (g.widen.rejected keep).run s = (g.rejected fun k v => keep k v.widen).run s := by
  rw [run_rejected, run_rejected, ids_widen]
  have hasked := interview_widen keep g.vertices.entries s
  change (interview keep g.widen.vertices.entries).run s = _ at hasked
  rw [hasked]

theorem retain_widen {σ : Type} (keep : NodeId → Node .multi ω → StateM σ Bool) (s : σ) :
    (g.widen.retain keep s).val =
      ((g.retain (fun k v => keep k v.widen) s).val.1.widen,
        (g.retain (fun k v => keep k v.widen) s).val.2) := by
  refine Prod.ext ?_ ?_
  · rw [val_retain, rejected_widen, val_retain]
    exact List.foldl_hom widen fun g id => congrArg Prod.fst (g.erase_widen id)
  · rw [val_retain_snd, val_retain_snd]
    exact congrArg Prod.snd (interview_widen keep g.vertices.entries s)

/-! ## Copying -/

theorem Rewired.widen {h : Graph (Node φ ω)} (hr : Rewired g h) : Rewired g.widen h.widen where
  id_eq := hr.id_eq
  next_eq := hr.next_eq
  vertices k := by
    rw [find?_widen, find?_widen]
    cases hv : g.find? k with
    | none =>
      rw [hr.find?_eq_none hv]
      exact .none
    | some v =>
      obtain ⟨w, hw, hvw⟩ := hr.exists_find? hv
      rw [hw]
      exact .some (Node.rewired_widen hvw)

/-- Making connections comes to the same for either flavour if the same opposites are listed in the
end. -/
theorem connectAll_widen {ls : List Link} (hpeers : ∀ d s,
      (g.widen.connectAll ls).val.1.peers d s = (g.connectAll ls).val.1.peers d s) :
    (g.widen.connectAll ls).val.1 = (g.connectAll ls).val.1.widen := by
  refine eq_of_rewired (g.widen.rewired_connectAll ls) (g.rewired_connectAll ls).widen ?_
  intro d s
  rw [hpeers, peers_widen]

/-- In a clone, the connections of a consistent graph of single ports are all accepted. -/
theorem clone_widen (hg : g.Consistent) (id : GraphId) :
    (g.widen.clone id).val = (g.clone id).val.widen := by
  have hcopies : g.widen.unlinkedClone id = (g.unlinkedClone id).widen := by
    refine ext_find? rfl rfl fun k => ?_
    rw [find?_unlinkedClone, find?_widen, find?_widen, find?_unlinkedClone]
    cases g.find? k with
    | none => rfl
    | some v => exact congrArg some (Node.widen_joinedCopy id k v).symm
  obtain ⟨_, hpeers⟩ := connectAll_unlinkedClone hg id
  obtain ⟨_, hpeers'⟩ := connectAll_unlinkedClone hg.widen id
  rw [val_clone, filterMap_ownNames hg.widen, val_clone, filterMap_ownNames hg]
  rw [inboundLinks_widen, hcopies] at hpeers' ⊢
  exact connectAll_widen fun d s => by rw [hpeers, hpeers']

theorem insertCopies_widen (g : Graph (Node φ ω)) (names : Renaming)
    (es : List (NodeId × Node φ ω)) :
    (g.widen.insertCopies names (es.map fun e => (e.1, e.2.widen))).val =
      ((g.insertCopies names es).val.1.widen, (g.insertCopies names es).val.2) := by
  induction es generalizing g names with
  | nil => rfl
  | cons e rest ih =>
    rw [List.map_cons, insertCopies, insertCopies]
    simp only [Journaled.val_bind, insertCopy_widen]
    generalize (g.insertCopy e.2).val = made
    obtain ⟨h, e | id⟩ := made
    · rfl
    · exact ih h _

/-- In another graph they are accepted as well. -/
theorem copyInto_widen {dest : Graph (Node φ ω)} (hg : g.Consistent) (hdest : dest.Bounded) :
    (g.widen.copyInto dest.widen).val =
      ((g.copyInto dest).val.1.widen, (g.copyInto dest).val.2) := by
  obtain ⟨h, names, hcopies, hen⟩ := g.enrolled_copies hdest
  obtain ⟨h', names', hcopies', hen'⟩ := g.widen.enrolled_copies hdest.widen
  have hsame := dest.insertCopies_widen .empty g.vertices.entries
  change (dest.widen.insertCopies .empty g.widen.vertices.entries).val = _ at hsame
  rw [hcopies', hcopies] at hsame
  cases hsame
  obtain ⟨hok, hpeers⟩ := connectAll_spec (hen.hasPort_renamed hg) (hen.room_for_renamed hg hdest)
  obtain ⟨hok', hpeers'⟩ :=
    connectAll_spec (hen'.hasPort_renamed hg.widen) (hen'.room_for_renamed hg.widen hdest.widen)
  rw [val_copyInto_of_connected hcopies hok, val_copyInto_of_connected hcopies' hok']
  rw [inboundLinks_widen] at hpeers' ⊢
  rw [connectAll_widen fun d s => by rw [hpeers, hpeers', peers_widen]]

end Graph

/-! ## Moving -/

/-- What became of the graphs, with all ports as multiple ports. -/
def Transfer.widen {φ : Flavour} {ω : Type} (t : Transfer (Node φ ω)) :
    Transfer (Node .multi ω) :=
  ⟨t.source.widen, t.dest.widen, t.answer⟩

namespace Graph

variable {φ : Flavour} {ω : Type}

theorem carry_widen (g h : Graph (Node φ ω)) (names : Renaming) (ids : List NodeId) :
    (g.widen.carry h.widen names ids).val = (g.carry h names ids).val.widen := by
  induction ids generalizing g h names with
  | nil => rfl
  | cons id rest ih =>
    rw [carry, carry]
    simp only [Journaled.val_bind, unbind_widen]
    generalize (g.unbind id).val = left
    obtain ⟨g', _ | v⟩ := left
    · exact ih g' h names
    · simp only [Option.map_some, Journaled.val_bind, adopt_widen]
      generalize (h.adopt v).val = taken
      obtain ⟨h', e | target⟩ := taken
      · rfl
      · exact ih g' h' _

theorem relink_widen (g : Graph (Node φ ω)) (names : Renaming) :
    g.widen.relink names = (g.relink names).widen :=
  List.foldl_hom widen fun _ _ =>
    (widen_adjust fun v _ => Node.widen_renameLinks names.get? v).symm

theorem moveInto_widen (g h : Graph (Node φ ω)) :
    (g.widen.moveInto h.widen).val = (g.moveInto h).val.widen := by
  rw [moveInto, moveInto]
  simp only [Journaled.val_bind, ids_widen, carry_widen]
  generalize (g.carry h .empty g.ids).val = t
  obtain ⟨g', h', e | names⟩ := t
  · rfl
  · simp only [Transfer.widen, Journaled.val_bind, Journaled.val_pure, relink_widen]
    rfl

theorem releaseInto_widen (g h : Graph (Node φ ω)) (subset : List NodeId) :
    (g.widen.releaseInto subset h.widen).val = (g.releaseInto subset h).val.widen := by
  rw [releaseInto, releaseInto]
  simp only [contains_widen, ids_widen]
  split
  · rfl
  · have hsever : (g.ids.filter subset.contains).foldl
        (fun g id => (g.severWhere id subset.contains).val) g.widen =
          ((g.ids.filter subset.contains).foldl
            (fun g id => (g.severWhere id subset.contains).val) g).widen :=
      List.foldl_hom widen fun g id => g.severWhere_widen id subset.contains
    simp only [Journaled.val_bind, Journaled.val_foldlM, hsever, carry_widen]
    generalize (carry _ h .empty _).val = t
    obtain ⟨g', h', e | names⟩ := t
    · rfl
    · simp only [Transfer.widen, Journaled.val_bind, Journaled.val_pure, relink_widen]

end Graph

end PortGraph
