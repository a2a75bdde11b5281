import Blackglass.Stream.Steps

/-!
# The queue of a connection

The revisions of a vault are, at any time, those a connection that has subscribed to it has
read from the database or taken off its queue, then those in its queue, and last one that
is committed and not published.  `Queue` says that these lists make up the history of the
vault; whatever the rest of the server does, it only adds to the end.
-/

namespace Blackglass.Stream

open Broadcast

variable {C : Type*}

namespace State

/-- The revisions ever committed to a vault. -/
def logOf (s : State C) (vault : String) : List Revision :=
  s.log.filter fun x => x.vaultId = vault

/-- The revision of a vault that is committed and not published, if there is one. -/
def pendingOf (s : State C) (vault : String) : List Revision :=
  s.pending.toList.filter fun x => x.vaultId = vault

end State

/-! ## What a step does to the history and the topics -/

/-- Nothing was committed or published. -/
structure Same (s s' : State C) : Prop where
  log : s'.log = s.log
  pending : s'.pending = s.pending
  topics : s'.topics = s.topics
  sequence : s'.db.sequence "revisions" = s.db.sequence "revisions"

/-- A revision was committed that is newer than all others. -/
structure Commits (s s' : State C) (r : Revision) : Prop where
  idle : s.pending = none
  log : s'.log = s.log ++ [r]
  pending : s'.pending = some r
  topics : s'.topics = s.topics
  newer : ∀ x ∈ s.log, x.uid < r.uid
  sequence_lt : (s.db.sequence "revisions").getD 0 < r.uid
  sequence_le : (s.db.sequence "revisions").getD 0 ≤ (s'.db.sequence "revisions").getD 0

/-- The committed revision was published. -/
structure Publishes (s s' : State C) (r : Revision) : Prop where
  committed : s.pending = some r
  log : s'.log = s.log
  pending : s'.pending = none
  topics : s'.topics = Function.update s.topics r.vaultId (s.topics r.vaultId ++ [r.toEvent])
  sequence : s'.db.sequence "revisions" = s.db.sequence "revisions"

namespace Sound

variable {s : State C} {c : C} [DecidableEq C]

theorem same_retreat {store : Store} (hchange : Change s.db false none store.db) :
    Same s (s.retreat c store) :=
  ⟨rfl, rfl, rfl, hchange.sequence_eq⟩

theorem commits (h : Sound s) {t : Readings} {request : Request} {answer : Answer} {store : Store}
    {r : Revision} (hphase : (s.conns c).phase = .committing request)
    (he : Effect s.db t request answer store.db) (hr : answer.revision? = some r) :
    Change s.db false (some r) store.db ∧ Commits s (s.commit c store r) r := by
  have hnone : s.pending = none :=
    h.pending_eq_none (c := c) (by rw [hphase]; rfl) (by simp [hphase])
  have hchange : Change s.db false (some r) store.db :=
    hr ▸ change_of_commitsTo s.store.constraints (h.committing c request hphase) he
  have huid : (∀ x ∈ s.log, x.uid < r.uid) ∧ (s.db.sequence "revisions").getD 0 < r.uid ∧
      (s.db.sequence "revisions").getD 0 ≤ (store.db.sequence "revisions").getD 0 := by
    generalize store.db = db' at hchange
    cases hchange with
    | commit _ _ =>
      refine ⟨fun x hx => h.history.lt_nextRevisionUid hx, getD_lt_nextRowid _ _, ?_⟩
      rw [commitRevision_sequence]
      exact (getD_lt_nextRowid _ _).le
  exact ⟨hchange, hnone, by simp [State.log, hnone, State.commit], rfl, rfl, huid.1, huid.2.1,
    huid.2.2⟩

theorem publishes (h : Sound s) {r : Revision} (hphase : (s.conns c).phase = .committed r) :
    Publishes s (s.publish c r) r := by
  obtain ⟨hpending, -⟩ := h.pending c r hphase
  refine ⟨hpending, ?_, rfl, rfl, rfl⟩
  simp [State.log, hpending, State.publish]

end Sound

/-! ## Queues -/

/-- The history of the connection's vault, up to its queue and in its queue. -/
structure Queue (s : State C) (k : Connection) (before queued : List Revision) : Prop where
  split : s.logOf k.vault = before ++ queued ++ s.pendingOf k.vault
  queue : s.undelivered k = queued.map Revision.toEvent
  bound : k.receiver.next ≤ (s.topics k.vault).length
  ready : k.ready ≤ (s.db.sequence "revisions").getD 0
  newer : ∀ x ∈ queued ++ s.pendingOf k.vault, k.ready < x.uid

section

variable {s s' : State C} {k : Connection} {before queued : List Revision}

theorem mem_logOf {vault : String} {x : Revision} :
    x ∈ s.logOf vault ↔ x ∈ s.log ∧ x.vaultId = vault := by
  simp [State.logOf]

theorem pendingOf_eq_nil (h : s.pending = none) (vault : String) : s.pendingOf vault = [] := by
  rw [State.pendingOf, h]
  rfl

theorem Sound.sorted_logOf (h : Sound s) (vault : String) :
    (s.logOf vault).Pairwise fun x y => x.uid < y.uid :=
  h.history.sorted.filter _

namespace Queue

theorem same (h : Queue s k before queued) (hsame : Same s s') : Queue s' k before queued := by
  have hpendingOf : s'.pendingOf k.vault = s.pendingOf k.vault := by
    rw [State.pendingOf, hsame.pending]
    rfl
  refine ⟨?_, ?_, ?_, ?_, ?_⟩
  · rw [State.logOf, hsame.log, hpendingOf]
    exact h.split
  · rw [State.undelivered, hsame.topics]
    exact h.queue
  · rw [hsame.topics]
    exact h.bound
  · rw [hsame.sequence]
    exact h.ready
  · rw [hpendingOf]
    exact h.newer

theorem commit (h : Queue s k before queued) {r : Revision} (hcommits : Commits s s' r) :
    Queue s' k before queued := by
  have hnew : s'.pendingOf k.vault = [r].filter fun x => x.vaultId = k.vault := by
    rw [State.pendingOf, hcommits.pending]
    rfl
  refine ⟨?_, ?_, ?_, h.ready.trans hcommits.sequence_le, fun x hx => ?_⟩
  · have hsplit := h.split
    rw [pendingOf_eq_nil hcommits.idle, List.append_nil] at hsplit
    rw [State.logOf, hcommits.log, List.filter_append, hnew, ← hsplit]
    rfl
  · rw [State.undelivered, hcommits.topics]
    exact h.queue
  · rw [hcommits.topics]
    exact h.bound
  · rcases List.mem_append.mp hx with hx | hx
    · exact h.newer x (List.mem_append_left _ hx)
    · rw [hnew] at hx
      rw [List.mem_singleton.mp (List.mem_of_mem_filter hx)]
      exact h.ready.trans_lt hcommits.sequence_lt

/-- What was published is in the queues of its vault. -/
theorem publish (h : Queue s k before queued) {r : Revision} (hpublishes : Publishes s s' r) :
    Queue s' k before (queued ++ s.pendingOf k.vault) := by
  have hnone := pendingOf_eq_nil hpublishes.pending k.vault
  have htopic : s'.topics k.vault =
      s.topics k.vault ++ (s.pendingOf k.vault).map Revision.toEvent := by
    rw [hpublishes.topics, State.pendingOf, hpublishes.committed]
    by_cases hvault : r.vaultId = k.vault
    · rw [hvault]
      simp [hvault]
    · rw [Function.update_of_ne fun heq => hvault heq.symm]
      simp [hvault]
  refine ⟨?_, ?_, ?_, ?_, ?_⟩
  · rw [State.logOf, hpublishes.log, hnone, List.append_nil, ← List.append_assoc]
    exact h.split
  · rw [State.undelivered, htopic, undelivered_append h.bound, List.map_append, ← h.queue]
    rfl
  · rw [htopic, List.length_append]
    exact h.bound.trans (Nat.le_add_right _ _)
  · rw [hpublishes.sequence]
    exact h.ready
  · rw [hnone, List.append_nil]
    exact h.newer

/-- A new subscription has an empty queue. -/
theorem subscribe (hs : Sound s) (hnone : s.pending = none)
    (hready : k.ready = s.db.currentVersion k.vault) (phase : Phase) :
    Queue s { k with phase := phase, receiver := subscribe (s.topics k.vault) }
      (s.logOf k.vault) [] := by
  have hpending := pendingOf_eq_nil hnone k.vault
  refine ⟨?_, undelivered_subscribe _, le_rfl, ?_, ?_⟩
  · rw [hpending, List.append_nil, List.append_nil]
  · rw [hready]
    exact hs.history.sequence _
  · rw [hpending]
    exact fun x hx => absurd hx List.not_mem_nil

/-- An event is taken off the queue. -/
theorem receive (h : Queue s k before queued) {capacity : Nat} {event : Event} {r : Receiver}
    (hr : k.receiver.receive capacity (s.topics k.vault) = .value event r) (phase : Phase) :
    ∃ x rest, queued = x :: rest ∧ x.toEvent = event ∧
      Queue s { k with phase := phase, receiver := r } (before ++ [x]) rest := by
  obtain ⟨hqueue, hbound, -⟩ := receive_value hr
  have hmap : queued.map Revision.toEvent = event :: r.undelivered (s.topics k.vault) :=
    h.queue.symm.trans hqueue
  obtain ⟨x, rest, rfl, hx, hrest⟩ := List.map_eq_cons_iff.mp hmap
  refine ⟨x, rest, rfl, hx, ⟨?_, hrest.symm, hbound, h.ready, ?_⟩⟩
  · rw [List.append_assoc before, List.singleton_append]
    exact h.split
  · exact fun y hy => h.newer y (List.mem_cons_of_mem _ hy)

/-- Nothing of this depends on where the connection is or what it has sent. -/
theorem congr {k' : Connection} (h : Queue s k before queued) (hvault : k'.vault = k.vault)
    (hready : k'.ready = k.ready) (hreceiver : k'.receiver = k.receiver) :
    Queue s k' before queued := by
  obtain ⟨h₁, h₂, h₃, h₄, h₅⟩ := h
  refine ⟨?_, ?_, ?_, ?_, ?_⟩
  · rw [hvault]
    exact h₁
  · rw [State.undelivered, hvault, hreceiver]
    exact h₂
  · rw [hvault, hreceiver]
    exact h₃
  · rw [hready]
    exact h₄
  · rw [hvault, hready]
    exact h₅

end Queue

end

end Blackglass.Stream
