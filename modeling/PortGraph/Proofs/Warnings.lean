import PortGraph.Proofs.Agreement
import PortGraph.Proofs.Sessions

/-!
# Warnings that are never given

Every graph that a session of weighted vertices comes to is consistent. So no call finds the two
ends of a connection in disagreement, whatever was done to the vertices before, and none gives a
warning but that a revised vertex records connections that nobody made (`Call.calm_journal`). The
errors that would be due to such a disagreement are not returned either
(`Call.error?_eq_inconsistent_iff`, `Call.error?_of_merges`).
-/

namespace PortGraph

variable {φ : Flavour} {ν : Type}

theorem calm_flatMap {α : Type} {as : List α} {f : α → List Entry} (h : ∀ a ∈ as, Calm (f a)) :
    Calm (as.flatMap f) := by
  intro e he
  obtain ⟨a, ha, hea⟩ := List.mem_flatMap.mp he
  exact h a ha e hea

theorem calm_mapM {α β : Type} {f : α → Journaled β} (h : ∀ a, Calm (f a).journal) (as : List α) :
    Calm (as.mapM f).journal := by
  induction as with
  | nil => exact calm_nil
  | cons a rest ih =>
    rw [List.mapM_cons]
    exact calm_append.mpr ⟨h a, calm_append.mpr ⟨ih, calm_nil⟩⟩

namespace Graph

variable [Vertex φ ν]

theorem calm_sort (g : Graph ν) (d : Direction) : Calm (g.sort d).journal := by
  unfold sort
  simp only
  split
  · exact calm_nil
  · exact .bind (calm_debug rfl) fun _ _ => calm_nil

/-! ## Storing and carrying vertices -/

section Tacit

variable [TacitVertex φ ν]

theorem calm_adopt (g : Graph ν) (v : ν) : Calm (g.adopt v).journal := by
  unfold adopt
  simp only
  split
  · exact calm_nil
  · exact .bind (TacitVertex.calm_onJoin _ v) fun _ _ =>
      .bind (calm_trace rfl) fun _ _ => calm_nil

theorem calm_unbind (g : Graph ν) (id : NodeId) : Calm (g.unbind id).journal := by
  unfold unbind
  split
  · exact calm_nil
  · exact .bind (TacitVertex.calm_onLeave _) fun _ _ => calm_nil

theorem calm_insertCopies (g : Graph ν) (names : Renaming) (es : List (NodeId × ν)) :
    Calm (g.insertCopies names es).journal := by
  induction es generalizing g names with
  | nil => exact calm_nil
  | cons e rest ih =>
    refine .bind (g.calm_adopt _) ?_
    rintro ⟨h, error | copy⟩ -
    · exact calm_nil
    · exact ih h _

theorem calm_carry (source dest : Graph ν) (names : Renaming) (ids : List NodeId) :
    Calm (source.carry dest names ids).journal := by
  induction ids generalizing source dest names with
  | nil => exact calm_nil
  | cons id rest ih =>
    refine .bind (source.calm_unbind id) ?_
    rintro ⟨source', _ | v⟩ -
    · exact ih source' dest names
    · refine .bind (dest.calm_adopt v) ?_
      rintro ⟨dest', error | target⟩ -
      · exact calm_nil
      · exact ih source' dest' _

theorem calm_moveInto (source dest : Graph ν) : Calm (source.moveInto dest).journal := by
  refine .bind (calm_carry _ _ _ _) ?_
  rintro ⟨source', dest', error | names⟩ -
  · exact calm_nil
  · exact .bind (calm_debug rfl) fun _ _ => calm_nil

theorem calm_intoOrphans (g : Graph ν) : Calm g.intoOrphans.journal :=
  calm_mapM (fun _ => .bind (TacitVertex.calm_onLeave _) fun _ _ => calm_nil) _

end Tacit

/-! ## Removing vertices -/

section Lawful

variable [LawfulPorts φ ν] {g : Graph ν}

theorem calm_erase (hg : g.Consistent) (id : NodeId) : Calm (g.erase id).journal := by
  unfold erase
  split
  · exact .bind (calm_severWhere hg id _) fun _ _ => .bind (calm_trace rfl) fun _ _ => calm_nil
  · exact calm_nil

theorem calm_release [TacitVertex φ ν] (hg : g.Consistent) (id : NodeId) :
    Calm (g.release id).journal := by
  unfold release
  split
  · exact .bind (calm_severWhere hg id _) fun h _ =>
      .bind (calm_trace rfl) fun _ _ => h.calm_unbind id
  · exact calm_nil

theorem calm_retain {σ : Type} (hg : g.Consistent) (keep : NodeId → ν → StateM σ Bool) (s : σ) :
    Calm (g.retain keep s).journal := by
  refine .bind ?_ fun _ _ => calm_nil
  refine Calm.foldlM (fun _ (h : Graph ν) => h.Consistent) (fun id _ h hh => ?_) hg
  exact ⟨.bind (calm_erase hh id) fun _ _ => calm_nil, (excision_erase hh id).consistent hh⟩

theorem calm_releaseInto [TacitVertex φ ν] (hg : g.Consistent) (subset : List NodeId)
    (dest : Graph ν) : Calm (g.releaseInto subset dest).journal := by
  unfold releaseInto
  split
  · exact calm_nil
  · refine .bind ?_ fun source _ => .bind (calm_carry _ _ _ _) ?_
    · exact Calm.foldlM (fun _ (h : Graph ν) => h.Consistent)
        (fun id _ h hh => ⟨calm_severWhere hh id _, hh.severWhere id _⟩) hg
    · rintro ⟨source', dest', error | names⟩ -
      · exact calm_nil
      · exact .bind (calm_debug rfl) fun _ _ => calm_nil

/-! ## Copying -/

theorem calm_connectAll (hg : g.Consistent) (ls : List Link) : Calm (g.connectAll ls).journal := by
  induction ls generalizing g with
  | nil => exact calm_nil
  | cons l rest ih =>
    have hfirst := hg.connect .incoming l.input l.output
    refine .bind (connect_agrees hg .incoming l.input l.output).1 ?_
    rintro ⟨h, error | made⟩ hval
    · exact calm_nil
    · rw [hval] at hfirst
      exact ih hfirst

theorem calm_copyInto [PassiveVertex φ ν] [TacitVertex φ ν] (source : Graph ν) {dest : Graph ν}
    (hdest : dest.Consistent) : Calm (source.copyInto dest).journal := by
  have hcopies := hdest.insertCopies .empty source.vertices.entries
  refine .bind (dest.calm_insertCopies _ _) ?_
  rintro ⟨h, error | names⟩ hval
  · exact calm_nil
  · rw [hval] at hcopies
    refine .bind (calm_connectAll hcopies _) ?_
    rintro ⟨h', error | _⟩ -
    · exact calm_nil
    · exact .bind (calm_debug rfl) fun _ _ => calm_nil

end Lawful

/-- The connections of a consistent graph can be repeated in a clone. -/
theorem calm_clone [SteadyVertex φ ν] [TacitVertex φ ν] {g : Graph ν} (hg : g.Consistent)
    (id : GraphId) : Calm (g.clone id).journal := by
  have hjoined (k : NodeId) (v : ν) : Calm (joinedCopy id k v).journal :=
    TacitVertex.calm_onJoin _ _
  have hunlinked : (g.unlinkedClone id).Consistent :=
    consistent_of_peers_eq_nil (g.peers_unlinkedClone id)
  have hcopies : Calm (g.copyVertices id).journal := calm_flatMap fun e _ => hjoined e.1 e.2
  have hreplicate : Calm (g.replicate (g.unlinkedClone id) g.ownNames).journal := by
    unfold replicate
    rw [filterMap_ownNames hg]
    exact calm_connectAll hunlinked _
  have hok : (g.replicate (g.unlinkedClone id) g.ownNames).val.2 = .ok () := by
    unfold replicate
    rw [filterMap_ownNames hg]
    exact (connectAll_unlinkedClone hg id).1
  unfold clone
  refine .bind hcopies fun vertices hval => ?_
  subst hval
  refine .bind hreplicate ?_
  rintro ⟨copy, error | _⟩ hval
  · change (g.replicate (g.unlinkedClone id) g.ownNames).val = _ at hval
    rw [hval] at hok
    cases hok
  · exact calm_nil

end Graph

/-! ## Calls -/

namespace Call

variable [Vertex φ ν] [SteadyVertex φ ν] {c : Call φ ν} {e : GraphError} {a b : Address}

/-- A call that finds consistent graphs gives no warning but about the links of a revised vertex. -/
theorem calm_journal [TacitVertex φ ν] (hc : ∀ g ∈ c.takes, g.Consistent) : Calm c.journal := by
  cases c with
  | insert g v => exact .bind (g.calm_adopt _) fun _ _ => calm_nil
  | insertCopy g v => exact .bind (g.calm_adopt _) fun _ _ => calm_nil
  | connect g d p q =>
    exact .bind (Graph.connect_agrees (hc g (.head _)) d p q).1 fun _ _ => calm_nil
  | link g l =>
    exact .bind (Graph.connect_agrees (hc g (.head _)) .outgoing _ _).1 fun _ _ => calm_nil
  | disconnect g d p q =>
    exact .bind (Graph.disconnect_agrees (hc g (.head _)) d p q).1 fun _ _ => calm_nil
  | disconnectAll g d p =>
    exact .bind (Graph.disconnectAll_agrees (hc g (.head _)) d p).1 fun _ _ => calm_nil
  | erase g id => exact .bind (Graph.calm_erase (hc g (.head _)) id) fun _ _ => calm_nil
  | release g id => exact .bind (Graph.calm_release (hc g (.head _)) id) fun _ _ => calm_nil
  | clear g =>
    exact .bind (.bind (calm_trace rfl) fun _ _ => calm_nil) fun _ _ => calm_nil
  | retain g keep s =>
    exact .bind (Graph.calm_retain (hc g (.head _)) keep s) fun _ _ => calm_nil
  | modify g id f =>
    exact .bind (Graph.calm_modify (hc g (.head _)) id fun _ => calm_nil) fun _ _ => calm_nil
  | modifyEach g f s =>
    exact .bind (Graph.calm_modifyEach (hc g (.head _)) (fun _ _ _ => calm_nil) s)
      fun _ _ => calm_nil
  | sort g d => exact .bind (g.calm_sort d) fun _ _ => calm_nil
  | new id => exact calm_nil
  | clone g id => exact .bind (Graph.calm_clone (hc g (.head _)) id) fun _ _ => calm_nil
  | copyInto source dest =>
    exact .bind (source.calm_copyInto (hc dest (.tail _ (.head _)))) fun _ _ => calm_nil
  | moveInto source dest => exact .bind (source.calm_moveInto dest) fun _ _ => calm_nil
  | releaseInto source subset dest =>
    exact .bind (Graph.calm_releaseInto (hc source (.head _)) subset dest) fun _ _ => calm_nil
  | releaseSet source subset id =>
    exact .bind (Graph.calm_releaseInto (hc source (.head _)) subset _) fun _ _ => calm_nil
  | dissolve g => exact .bind g.calm_intoOrphans fun _ _ => calm_nil
  | discard g => exact calm_nil

/-- Vertices are carried or copied to another graph unless one of them is missing. -/
theorem error?_of_merges (hc : ∀ g ∈ c.takes, g.Sound) (hmerges : c.merges = true)
    (he : c.error? = some e) : ∃ k, e = .migrationTargetNotInSource k := by
  cases c with
  | copyInto source dest =>
    have hanswer := Outcome.error?_answer.mp he
    obtain ⟨_, _, _, hok, _⟩ := Graph.copyInto_eq (hc source (.head _)).consistent
      (hc dest (.tail _ (.head _))).bounded
    rw [hok] at hanswer
    cases hanswer
  | moveInto source dest =>
    have hanswer := Outcome.error?_answer.mp he
    obtain ⟨_, _, hval, _⟩ := source.moveInto_eq (hc dest (.tail _ (.head _))).bounded
    rw [hval] at hanswer
    cases hanswer
  | releaseInto source subset dest =>
    exact Graph.releaseInto_error (hc dest (.tail _ (.head _))).bounded
      (Outcome.error?_answer.mp he)
  | releaseSet source subset id =>
    exact Graph.releaseInto_error (Graph.bounded_of_vertices_eq_empty rfl)
      (Outcome.error?_answer.mp he)
  | _ => cases hmerges

/-- The ends of a connection are never found in disagreement, except that a single port is to be
disconnected from one that it is not connected to. -/
theorem error?_eq_inconsistent_iff (hc : ∀ g ∈ c.takes, g.Sound) :
    c.error? = some (.connect (.inconsistentConnection a b)) ↔
      ∃ g d p q t, c = .disconnect g d p q ∧ φ = .single ∧ g.peers d p = [t] ∧ t ≠ q ∧
        a = p.at d ∧ b = q.at d.opposite := by
  constructor
  · intro herror
    by_cases hmerges : c.merges = true
    · obtain ⟨k, hk⟩ := error?_of_merges hc hmerges herror
      cases hk
    cases c with
    | insert g v =>
      have hanswer := Outcome.error?_answer.mp herror
      rw [Graph.insert_snd (hc g (.head _)).bounded] at hanswer
      cases hanswer
    | insertCopy g v =>
      have hanswer := Outcome.error?_answer.mp herror
      rw [Graph.insertCopy, Graph.insert_snd (hc g (.head _)).bounded] at hanswer
      cases hanswer
    | connect g d p q =>
      obtain ⟨_, hanswer, he⟩ := Outcome.error?_connection.mp herror
      cases he
      exact absurd hanswer ((Graph.connect_agrees (hc g (.head _)).consistent d p q).2 a b)
    | link g l =>
      obtain ⟨_, hanswer, he⟩ := Outcome.error?_connection.mp herror
      cases he
      exact absurd hanswer ((Graph.connect_agrees (hc g (.head _)).consistent .outgoing _ _).2 a b)
    | disconnect g d p q =>
      obtain ⟨_, hanswer, he⟩ := Outcome.error?_connection.mp herror
      cases he
      obtain ⟨hφ, ⟨t, ht, hne⟩, ha, hb⟩ :=
        (Graph.disconnect_inconsistent_iff (hc g (.head _)).consistent).mp hanswer
      exact ⟨g, d, p, q, t, rfl, hφ, ht, hne, ha, hb⟩
    | disconnectAll g d p =>
      obtain ⟨_, hanswer, he⟩ := Outcome.error?_connection.mp herror
      cases he
      exact absurd hanswer ((Graph.disconnectAll_agrees (hc g (.head _)).consistent d p).2 a b)
    | modify g id f => cases Graph.modify_error (Outcome.error?_answer.mp herror)
    | copyInto | moveInto | releaseInto | releaseSet => exact absurd rfl hmerges
    | _ => cases herror
  · rintro ⟨g, d, p, q, t, rfl, hφ, ht, hne, ha, hb⟩
    exact Outcome.error?_connection.mpr ⟨_, (Graph.disconnect_inconsistent_iff
      (hc g (.head _)).consistent).mpr ⟨hφ, ⟨t, ht, hne⟩, ha, hb⟩, rfl⟩

end Call

/-! ## Sessions -/

/-- What a call warns of and what it refuses is due to what is asked of it, and no sign of a corrupt
graph. -/
structure Call.Explained [Vertex φ ν] (c : Call φ ν) : Prop where
  /-- The only warning is that a revised vertex records connections that nobody made. -/
  warnings (e : Event) (he : Entry.event e ∈ c.journal) (hwarning : e.severity = .warning) :
    ∃ graph node, e = .unmanagedLinks graph node
  /-- The only disagreement is about a single port that is to be disconnected from another than the
  one that it is connected to. -/
  inconsistent_iff (a b : Address) :
    c.error? = some (.connect (.inconsistentConnection a b)) ↔
      ∃ g d p q t, c = .disconnect g d p q ∧ φ = .single ∧ g.peers d p = [t] ∧ t ≠ q ∧
        a = p.at d ∧ b = q.at d.opposite
  /-- Vertices are carried or copied to another graph unless one of them is missing. -/
  merged (hmerges : c.merges = true) (e : GraphError) (he : c.error? = some e) :
    ∃ k, e = .migrationTargetNotInSource k

/-- In a session of weighted vertices every call is explained, whatever is done to the vertices when
they are revised. -/
theorem Session.calls_explained {ω : Type} {p q : Pool (Node φ ω)} {cs : List (Call φ (Node φ ω))}
    (hp : ∀ g ∈ p.graphs, g.Sound) (h : Session p cs q) : ∀ c ∈ cs, c.Explained := by
  intro c hc
  obtain ⟨hcs, _⟩ := h.all Graph.invariant_sound hp
  obtain ⟨_, hsound⟩ := hcs c hc
  exact ⟨Call.calm_journal fun g hg => (hsound g hg).consistent,
    fun a b => Call.error?_eq_inconsistent_iff hsound,
    fun hmerges e he => Call.error?_of_merges hsound hmerges he⟩

/-- A vertex with a loop, connected to another vertex. -/
def lasso : Graph (Node .single Unit) :=
  let g := ((Graph.empty .first).insert (Node.new () 1 2)).val.1
  let g := (g.insert (Node.new () 2 0)).val.1
  let g := (g.connect .outgoing ⟨.first, 0⟩ ⟨.first, 0⟩).val.1
  (g.connect .outgoing ⟨.first, 1⟩ ⟨NodeId.first.next, 0⟩).val.1

theorem sound_lasso : lasso.Sound := by
  have hempty : (Graph.empty .first : Graph (Node .single Unit)).Sound :=
    .of_vertices_eq_empty rfl
  exact (((hempty.insert _).insert _).connect _ _ _).connect _ _ _

/-- Exchanges the outputs of a vertex along with their connections. -/
def flip (v : Node .single Unit) : Node .single Unit := { v with outputs := v.outputs.reverse }

/-- The first vertex is to be disconnected from a wrong port, then its outputs are exchanged, and
then it is erased. -/
def mishandle (g : Graph (Node .single Unit)) : List (Call .single (Node .single Unit)) :=
  let h := (g.disconnect .outgoing ⟨.first, 1⟩ ⟨NodeId.first.next, 1⟩).val.1
  [.disconnect g .outgoing ⟨.first, 1⟩ ⟨NodeId.first.next, 1⟩, .modify h .first flip,
    .erase (h.modify .first fun v => pure (flip v, ())).val.1 .first]

theorem session_mishandle (g : Graph (Node .single Unit)) (n : GraphId) :
    ∃ q, Session ⟨[g], n⟩ (mishandle g) q := by
  let h := (g.disconnect .outgoing ⟨.first, 1⟩ ⟨NodeId.first.next, 1⟩).val.1
  have hdisconnect : Pool.Offers ⟨[g], n⟩
      (.disconnect g .outgoing ⟨.first, 1⟩ ⟨NodeId.first.next, 1⟩ : Call .single _) [] :=
    ⟨.refl _, nofun⟩
  have hmodify : Pool.Offers ⟨[h], n⟩ (.modify h .first flip : Call .single _) [] :=
    ⟨.refl _, nofun⟩
  have herase : Pool.Offers ⟨[(h.modify .first fun v => pure (flip v, ())).val.1], n⟩
      (.erase (h.modify .first fun v => pure (flip v, ())).val.1 .first : Call .single _) [] :=
    ⟨.refl _, nofun⟩
  exact ⟨_, (((Session.nil _).step hdisconnect).step hmodify).step herase⟩

/-- The wrong port is refused, and the exchanged outputs record connections that nobody made. -/
theorem Session.calls_explained_lasso : ∃ q, (∀ g ∈ [lasso], g.Sound) ∧
    Session ⟨[lasso], GraphId.first.next⟩ (mishandle lasso) q ∧
    (∀ c ∈ mishandle lasso, c.Explained) ∧
    (mishandle lasso).map Call.error? =
      [some (.connect (.inconsistentConnection (NodeId.first.output 1)
        (NodeId.first.next.input 1))), none, none] ∧
    ((events ((mishandle lasso).flatMap Call.journal)).filter fun e => e.severity = .warning) =
      [.unmanagedLinks .first .first] := by
  have hsound : ∀ g ∈ [lasso], g.Sound := List.forall_mem_singleton.mpr sound_lasso
  obtain ⟨q, hsession⟩ := session_mishandle lasso GraphId.first.next
  exact ⟨q, hsound, hsession, calls_explained hsound hsession, by decide, by decide⟩

end PortGraph
