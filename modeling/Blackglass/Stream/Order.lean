import Blackglass.Stream.Queue

/-!
# The order of the change stream

A client that has reached some version of its vault is told every later revision, once and
in order.  Of the revisions above that version that are no longer in its queue, a connection
has sent notices of the first ones, and still has the others at hand: the rest of a replay,
or an event it has just received.  `Flow` says so, and every step of the connection moves
revisions from one list to the list before it.
-/

namespace Blackglass.Stream

open Broadcast Transition

section

@[simp] theorem noticesIn_append (xs ys : List Message) :
    noticesIn (xs ++ ys) = noticesIn xs ++ noticesIn ys := List.filterMap_append

variable (k : Connection)

@[simp] theorem notices_goes (phase : Phase) : (k.goes phase).notices = k.notices := rfl

@[simp] theorem notices_sends (m : Message) :
    (k.sends m).notices = k.notices ++ m.notice?.toList := by
  simp only [Connection.notices, Connection.sends, noticesIn_append]
  cases m <;> rfl

end

variable {C : Type*}

namespace State

/-- The revisions of the connection's vault above the version its client has. -/
def logAfter (s : State C) (k : Connection) : List Revision :=
  s.log.filter fun x => x.vaultId = k.vault && k.version < x.uid

end State

/-- The revisions above the client's version, by how far they have come: sent, at hand, in
the queue. -/
structure Flow (s : State C) (k : Connection) (done todo queued : List Revision) : Prop where
  queue : ∃ before, Queue s k before queued ∧
    (before.filter fun x => k.version < x.uid) = done ++ todo
  notices : k.notices = done.map Revision.toNotice
  version : k.version ≤ k.ready

/-- What a connection has at hand. -/
def Holds (k : Connection) (done todo queued : List Revision) : Prop :=
  match k.phase with
  | .replay cursor page more =>
    page <+: todo ∧ (more = false → page = todo) ∧ k.version ≤ cursor ∧
      (∀ x ∈ done, x.uid ≤ cursor) ∧ ∀ x ∈ todo, cursor < x.uid ∧ x.uid ≤ k.ready
  | .sending event => todo.map Revision.toEvent = [event]
  | .waiting uid => todo = [] ∧ ∃ y ∈ queued, y.uid = uid
  | .echoing uid event =>
    todo.map Revision.toEvent = [event] ∧ ∃ y ∈ todo ++ queued, y.uid = uid
  | .acknowledging uid => todo = [] ∧ ∃ y ∈ done, y.uid = uid
  | _ => todo = []

/-- A connection has sent the revisions above its client's version in order, each
acknowledgement after all of them up to the acknowledged one, and the rest will follow. -/
structure Ordered (s : State C) (k : Connection) : Prop where
  base : ∃ done rest, s.logAfter k = done ++ rest ∧ k.notices = done.map Revision.toNotice
  acked : ∀ before uid after, k.sent = before ++ .ack uid :: after →
    (∃ x ∈ s.log, x.uid = uid) ∧ ∀ x ∈ s.logAfter k, x.uid ≤ uid → x.toNotice ∈ noticesIn before
  flows : k.phase.subscribed = true → ∃ done todo queued,
    Flow s k done todo queued ∧ Holds k done todo queued

section

variable {s s' : State C} {k : Connection} {done todo queued : List Revision}

theorem Holds.queue (h : Holds k done todo queued) (more : List Revision) :
    Holds k done todo (queued ++ more) := by
  unfold Holds at h ⊢
  split at h
  · exact h
  · exact h
  · obtain ⟨htodo, y, hy, huid⟩ := h
    exact ⟨htodo, y, List.mem_append_left _ hy, huid⟩
  · obtain ⟨htodo, y, hy, huid⟩ := h
    exact ⟨htodo, y, by rw [← List.append_assoc]; exact List.mem_append_left _ hy, huid⟩
  · exact h
  · exact h

namespace Flow

theorem logAfter_eq (s : State C) (k : Connection) :
    s.logAfter k = (s.logOf k.vault).filter fun x => k.version < x.uid := by
  rw [State.logAfter, State.logOf, List.filter_filter]
  exact List.filter_congr fun x _ => Bool.and_comm _ _

theorem newer (h : Flow s k done todo queued) : ∀ x ∈ queued ++ s.pendingOf k.vault,
    k.ready < x.uid := by
  obtain ⟨before, hqueue, -⟩ := h.queue
  exact hqueue.newer

/-- The three lists, and what is not published, are everything above the version. -/
theorem split (h : Flow s k done todo queued) :
    s.logAfter k = done ++ todo ++ queued ++ s.pendingOf k.vault := by
  obtain ⟨before, hqueue, hbefore⟩ := h.queue
  have hrest : ((queued ++ s.pendingOf k.vault).filter fun x => k.version < x.uid) =
      queued ++ s.pendingOf k.vault :=
    List.filter_eq_self.mpr fun x hx => by
      simpa using h.version.trans_lt (hqueue.newer x hx)
  rw [logAfter_eq, hqueue.split, List.append_assoc, List.filter_append, hbefore, hrest,
    ← List.append_assoc]

/-- What happens to the queue. -/
theorem of_queue {queued' : List Revision} (h : Flow s k done todo queued)
    (hqueue : ∀ {before}, Queue s k before queued → Queue s' k before queued') :
    Flow s' k done todo queued' := by
  obtain ⟨before, hq, hbefore⟩ := h.queue
  exact ⟨⟨before, hqueue hq, hbefore⟩, h.notices, h.version⟩

end Flow

/-! ## Changes of the rest of the server -/

theorem Ordered.same (h : Ordered s k) (hsame : Same s s') : Ordered s' k := by
  have hafter : s'.logAfter k = s.logAfter k := by rw [State.logAfter, hsame.log]; rfl
  refine ⟨by rw [hafter]; exact h.base, by rw [hafter, hsame.log]; exact h.acked, fun hk => ?_⟩
  obtain ⟨done, todo, queued, hflow, hholds⟩ := h.flows hk
  exact ⟨done, todo, queued, hflow.of_queue fun hq => hq.same hsame, hholds⟩

theorem Ordered.commit (h : Ordered s k) {r : Revision} (hcommits : Commits s s' r) :
    Ordered s' k := by
  have hafter : s'.logAfter k =
      s.logAfter k ++ [r].filter fun x => x.vaultId = k.vault && k.version < x.uid := by
    rw [State.logAfter, hcommits.log, List.filter_append]
    rfl
  refine ⟨?_, fun before uid after hsent => ?_, fun hk => ?_⟩
  · obtain ⟨done, rest, hsplit, hnotices⟩ := h.base
    exact ⟨done, _, by rw [hafter, hsplit, List.append_assoc], hnotices⟩
  · obtain ⟨⟨y, hy, huid⟩, hacked⟩ := h.acked before uid after hsent
    refine ⟨⟨y, by rw [hcommits.log]; exact List.mem_append_left _ hy, huid⟩, fun x hx hle => ?_⟩
    rw [hafter] at hx
    rcases List.mem_append.mp hx with hx | hx
    · exact hacked x hx hle
    · have hr := List.mem_singleton.mp (List.mem_of_mem_filter hx)
      have hlt := hcommits.newer y hy
      rw [hr, ← huid] at hle
      exact absurd hlt (not_lt.mpr hle)
  · obtain ⟨done, todo, queued, hflow, hholds⟩ := h.flows hk
    exact ⟨done, todo, queued, hflow.of_queue fun hq => hq.commit hcommits, hholds⟩

theorem Ordered.publish (h : Ordered s k) {r : Revision} (hpublishes : Publishes s s' r) :
    Ordered s' k := by
  have hafter : s'.logAfter k = s.logAfter k := by rw [State.logAfter, hpublishes.log]; rfl
  refine ⟨by rw [hafter]; exact h.base, by rw [hafter, hpublishes.log]; exact h.acked,
    fun hk => ?_⟩
  obtain ⟨done, todo, queued, hflow, hholds⟩ := h.flows hk
  exact ⟨done, todo, _, hflow.of_queue fun hq => hq.publish hpublishes, hholds.queue _⟩

/-! ## Moves of the connection -/

theorem Ordered.of_sent_nil (hsent : k.sent = []) (hphase : k.phase.subscribed = false) :
    Ordered s k where
  base := ⟨[], s.logAfter k, rfl, by rw [Connection.notices, hsent]; rfl⟩
  acked before uid after heq := by
    rw [hsent] at heq
    exact absurd heq.symm (by simp)
  flows hk := absurd hk (by simp [hphase])

/-- Closing changes nothing of what was sent. -/
theorem Ordered.close (h : Ordered s k) (r : Receiver) :
    Ordered s { k with phase := .closed, receiver := r } where
  base := h.base
  acked := h.acked
  flows hk := nomatch hk

theorem Ordered.of_flow (hacked : ∀ before uid after, k.sent = before ++ .ack uid :: after →
      (∃ x ∈ s.log, x.uid = uid) ∧
        ∀ x ∈ s.logAfter k, x.uid ≤ uid → x.toNotice ∈ noticesIn before)
    (hflow : Flow s k done todo queued) (hholds : Holds k done todo queued) : Ordered s k where
  base := by
    refine ⟨done, todo ++ (queued ++ s.pendingOf k.vault), ?_, hflow.notices⟩
    rw [hflow.split, List.append_assoc, List.append_assoc]
  acked := hacked
  flows _ := ⟨done, todo, queued, hflow, hholds⟩

theorem append_singleton_eq {α : Type*} {xs before after : List α} {m a : α}
    (h : xs ++ [m] = before ++ a :: after) :
    (m = a ∧ xs = before) ∨ ∃ after', xs = before ++ a :: after' := by
  rcases List.eq_nil_or_concat after with rfl | ⟨after', b, rfl⟩
  · obtain ⟨hxs, hm⟩ := List.append_inj' h rfl
    exact .inl ⟨List.singleton_inj.mp hm, hxs⟩
  · rw [List.concat_eq_append, ← List.cons_append, ← List.append_assoc] at h
    exact .inr ⟨after', (List.append_inj' h rfl).1⟩

/-- A message that is no acknowledgement leaves the acknowledgements as they are. -/
theorem Ordered.acked_sends (h : Ordered s k) {m : Message} (hm : ∀ uid, m ≠ .ack uid)
    {before after : List Message} {uid : Int}
    (hsent : (k.sends m).sent = before ++ .ack uid :: after) :
    (∃ x ∈ s.log, x.uid = uid) ∧
      ∀ x ∈ s.logAfter k, x.uid ≤ uid → x.toNotice ∈ noticesIn before := by
  rcases append_singleton_eq hsent with ⟨rfl, -⟩ | ⟨after', heq⟩
  · exact absurd rfl (hm uid)
  · exact h.acked before uid after' heq

namespace Flow

theorem goes (h : Flow s k done todo queued) (phase : Phase) :
    Flow s (k.goes phase) done todo queued := by
  obtain ⟨before, hqueue, hbefore⟩ := h.queue
  exact ⟨⟨before, hqueue.congr rfl rfl rfl, hbefore⟩, h.notices, h.version⟩

/-- The next revision at hand is sent. -/
theorem sends {x : Revision} (h : Flow s k done (x :: todo) queued) :
    Flow s (k.sends (.notice x.toNotice)) (done ++ [x]) todo queued := by
  obtain ⟨before, hqueue, hbefore⟩ := h.queue
  refine ⟨⟨before, hqueue.congr rfl rfl rfl, ?_⟩, ?_, h.version⟩
  · rw [List.append_assoc, List.singleton_append]
    exact hbefore
  · rw [notices_sends, h.notices, List.map_append]
    rfl

/-- A message that is no notice. -/
theorem sends_other (h : Flow s k done todo queued) {m : Message} (hm : m.notice? = none) :
    Flow s (k.sends m) done todo queued := by
  obtain ⟨before, hqueue, hbefore⟩ := h.queue
  refine ⟨⟨before, hqueue.congr rfl rfl rfl, hbefore⟩, ?_, h.version⟩
  rw [notices_sends, hm, h.notices]
  exact List.append_nil _

/-- An event is taken off the queue. -/
theorem receive (h : Flow s k done [] queued) {capacity : Nat} {event : Event} {r : Receiver}
    (hr : k.receiver.receive capacity (s.topics k.vault) = .value event r) (phase : Phase) :
    ∃ x rest, queued = x :: rest ∧ x.toEvent = event ∧
      Flow s { k with phase := phase, receiver := r } done [x] rest := by
  obtain ⟨before, hqueue, hbefore⟩ := h.queue
  obtain ⟨x, rest, rfl, hx, hqueue'⟩ := hqueue.receive hr phase
  refine ⟨x, rest, rfl, hx, ⟨⟨before ++ [x], hqueue', ?_⟩, h.notices, h.version⟩⟩
  have hlt : k.version < x.uid :=
    h.version.trans_lt (hqueue.newer x (List.mem_append_left _ List.mem_cons_self))
  rw [List.append_nil] at hbefore
  rw [List.filter_append, hbefore]
  simp [hlt]

end Flow

theorem Sound.sorted_logAfter (hs : Sound s) (k : Connection) :
    (s.logAfter k).Pairwise fun x y => x.uid < y.uid :=
  hs.history.sorted.filter _

/-- What is left to replay is what the database has between the cursor and the version. -/
theorem Flow.page_eq {cursor : Int} (h : Flow s k done todo queued)
    (hs : Sound s) (hcomplete : Complete s.db s.log) (hinitial : k.initial = false)
    (hcursor : k.version ≤ cursor) (hdone : ∀ x ∈ done, x.uid ≤ cursor)
    (htodo : ∀ x ∈ todo, cursor < x.uid ∧ x.uid ≤ k.ready) :
    s.page k cursor = todo.take 16 := by
  have hpage : s.page k cursor = s.db.listChangesPage k.vault cursor k.ready replayPageSize :=
    if_neg (by simp [hinitial])
  rw [hpage, listChangesPage_eq hs.history s.store.constraints hcomplete]
  have hfilter : (s.log.filter fun x => x.vaultId = k.vault && cursor < x.uid && x.uid ≤ k.ready) =
      (s.logAfter k).filter fun x => cursor < x.uid && x.uid ≤ k.ready := by
    rw [State.logAfter, List.filter_filter]
    refine List.filter_congr fun x _ => ?_
    by_cases hlt : cursor < x.uid
    · simp [hlt, hcursor.trans_lt hlt, Bool.and_comm]
    · simp [hlt]
  have hrest : ∀ x ∈ queued ++ s.pendingOf k.vault, ¬x.uid ≤ k.ready := fun x hx =>
    not_le.mpr (h.newer x hx)
  rw [hfilter, h.split, List.append_assoc, List.filter_append, List.filter_append]
  have h₁ : done.filter (fun x => cursor < x.uid && x.uid ≤ k.ready) = [] :=
    List.filter_eq_nil_iff.mpr fun x hx => by simp [hdone x hx]
  have h₂ : todo.filter (fun x => cursor < x.uid && x.uid ≤ k.ready) = todo :=
    List.filter_eq_self.mpr fun x hx => by simp [htodo x hx]
  have h₃ : (queued ++ s.pendingOf k.vault).filter (fun x => cursor < x.uid && x.uid ≤ k.ready) =
      [] :=
    List.filter_eq_nil_iff.mpr fun x hx => by simp [hrest x hx]
  rw [h₁, h₂, h₃, List.append_nil]
  rfl

/-- A connection subscribes: nothing is sent yet, and the replay has everything to do. -/
theorem Flow.subscribe (hs : Sound s) (hsent : k.sent = []) (hnone : s.pending = none)
    (hready : k.ready = s.db.currentVersion k.vault) (hversion : k.version ≤ k.ready)
    (phase : Phase) :
    Flow s { k with phase := phase, receiver := subscribe (s.topics k.vault) } [] (s.logAfter k)
      [] := by
  refine ⟨⟨_, .subscribe hs hnone hready phase, (logAfter_eq s k).symm⟩, ?_, hversion⟩
  rw [Connection.notices, hsent]
  rfl

/-- The connection sends the next revision of its page. -/
theorem Holds.replay {cursor : Int} {r : Revision} {page : List Revision} {more : Bool}
    (hs : Sound s) (hflow : Flow s k done todo queued)
    (hphase : k.phase = .replay cursor (r :: page) more) (h : Holds k done todo queued) :
    ∃ rest, todo = r :: rest ∧
      Holds ((k.goes (.replay r.uid page more)).sends (.notice r.toNotice)) (done ++ [r]) rest
        queued := by
  rw [Holds, hphase] at h
  obtain ⟨⟨tail, htail⟩, hmore, hversion, hdone, htodo⟩ := h
  have hsplit : todo = r :: (page ++ tail) := htail.symm
  subst hsplit
  have hr := htodo r List.mem_cons_self
  refine ⟨page ++ tail, rfl, ⟨tail, rfl⟩, fun hfalse => ?_, hversion.trans hr.1.le, ?_, ?_⟩
  · exact (List.cons.inj (hmore hfalse)).2
  · intro x hx
    rcases List.mem_append.mp hx with hx | hx
    · exact (hdone x hx).trans hr.1.le
    · rw [List.mem_singleton.mp hx]
  · intro x hx
    -- the history is sorted, so that the rest of the page is newer
    have hsorted := hs.sorted_logAfter k
    rw [hflow.split, List.append_assoc, List.append_assoc] at hsorted
    have htodoSorted := (List.pairwise_append.mp (List.pairwise_append.mp hsorted).2.1).1
    exact ⟨(List.pairwise_cons.mp htodoSorted).1 x hx, (htodo x (List.mem_cons_of_mem _ hx)).2⟩

/-- Everything up to a revision that was sent was sent. -/
theorem Flow.mem_done {x y : Revision} (hs : Sound s) (h : Flow s k done todo queued)
    (hy : y ∈ done) (hx : x ∈ s.logAfter k) (hle : x.uid ≤ y.uid) : x ∈ done := by
  have hsorted := hs.sorted_logAfter k
  rw [h.split, List.append_assoc, List.append_assoc] at hsorted hx
  rcases List.mem_append.mp hx with hx | hx
  · exact hx
  · exact absurd ((List.pairwise_append.mp hsorted).2.2 y hy x hx) (not_lt.mpr hle)

/-- Moves keep a connection that follows its vault in order. -/
theorem Ordered.move {c : C} {k' : Connection} (hs : Sound s) (hcomplete : Complete s.db s.log)
    (h : (s.conns c).initial = false → Ordered s (s.conns c)) (hmove : Move s (s.conns c) k')
    (hinitial : k'.initial = false) : Ordered s k' := by
  generalize hk : s.conns c = k at h hmove
  cases hmove with
  | init hphase _ =>
    exact .of_sent_nil (hk ▸ hs.fresh c (by rw [hk, hphase]; rfl)) rfl
  | readVersion hphase =>
    exact .of_sent_nil (hk ▸ hs.fresh c (by rw [hk, hphase]; rfl)) rfl
  | subscribe hphase hversion =>
    have hsent : k.sent = [] := hk ▸ hs.fresh c (by rw [hk, hphase]; rfl)
    have hnone : s.pending = none :=
      hs.pending_eq_none (c := c) (by rw [hk, hphase]; rfl) (by simp [hk, hphase])
    have hready : k.ready = s.db.currentVersion k.vault := hk ▸ hs.initRead c (by rw [hk, hphase])
    have hflow := Flow.subscribe hs hsent hnone hready (hversion hinitial)
      (.replay (if k.initial then 0 else k.version) [] true)
    refine .of_flow (h hinitial).acked hflow ⟨List.nil_prefix, (fun hm => nomatch hm), ?_, ?_, ?_⟩
    · rw [if_neg (by simpa using hinitial)]
    · exact fun x hx => absurd hx List.not_mem_nil
    · intro x hx
      obtain ⟨hmem, hsel⟩ := List.mem_filter.mp hx
      simp only [Bool.and_eq_true, decide_eq_true_eq] at hsel
      rw [if_neg (by simpa using hinitial)]
      refine ⟨hsel.2, ?_⟩
      show x.uid ≤ k.ready
      rw [hready, ← hsel.1]
      exact hs.history.version x hmem
  | fetch hphase =>
    rename_i cursor
    obtain ⟨done, todo, queued, hflow, hholds⟩ := (h hinitial).flows (by rw [hphase]; rfl)
    rw [Holds, hphase] at hholds
    obtain ⟨-, -, hversion, hdone, htodo⟩ := hholds
    have hpage := hflow.page_eq hs hcomplete hinitial hversion hdone htodo
    refine .of_flow (h hinitial).acked (hflow.goes _)
      ⟨?_, fun hmore => ?_, hversion, hdone, htodo⟩
    · rw [hpage]
      exact List.take_prefix _ _
    · rw [hpage, replayPageSize, List.length_take, decide_eq_false_iff_not] at hmore
      rw [hpage]
      exact List.take_of_length_le (by omega)
  | replay hphase =>
    obtain ⟨done, todo, queued, hflow, hholds⟩ := (h hinitial).flows (by rw [hphase]; rfl)
    obtain ⟨rest, rfl, hnext⟩ := hholds.replay hs hflow hphase
    exact .of_flow (fun _ _ _ => (h hinitial).acked_sends (by simp)) (hflow.goes _).sends hnext
  | ready hphase =>
    obtain ⟨done, todo, queued, hflow, hholds⟩ := (h hinitial).flows (by rw [hphase]; rfl)
    rw [Holds, hphase] at hholds
    have htodo : [] = todo := hholds.2.1 rfl
    subst htodo
    exact .of_flow (fun _ _ _ => (h hinitial).acked_sends (by simp))
      ((hflow.goes _).sends_other rfl) rfl
  | begin hphase _ =>
    obtain ⟨done, todo, queued, hflow, hholds⟩ := (h hinitial).flows (by rw [hphase]; rfl)
    rw [Holds, hphase] at hholds
    exact .of_flow (h hinitial).acked (hflow.goes _) hholds
  | receive hphase hvalue =>
    obtain ⟨done, todo, queued, hflow, hholds⟩ := (h hinitial).flows (by rw [hphase]; rfl)
    rw [Holds, hphase] at hholds
    obtain rfl : todo = [] := hholds
    obtain ⟨x, rest, rfl, hx, hflow⟩ := hflow.receive hvalue (.sending _)
    exact .of_flow (h hinitial).acked hflow (by simp [Holds, hx])
  | receiveEcho hphase hvalue =>
    obtain ⟨done, todo, queued, hflow, hholds⟩ := (h hinitial).flows (by rw [hphase]; rfl)
    rw [Holds, hphase] at hholds
    obtain ⟨rfl, hown⟩ : todo = [] ∧ _ := hholds
    obtain ⟨x, rest, rfl, hx, hflow⟩ := hflow.receive hvalue (.echoing _ _)
    exact .of_flow (h hinitial).acked hflow ⟨by simp [hx], hown⟩
  | send hphase =>
    obtain ⟨done, todo, queued, hflow, hholds⟩ := (h hinitial).flows (by rw [hphase]; rfl)
    rw [Holds, hphase] at hholds
    obtain ⟨x, rfl, rfl⟩ := List.map_eq_singleton_iff.mp hholds
    exact .of_flow (fun _ _ _ => (h hinitial).acked_sends (by simp)) (hflow.goes _).sends rfl
  | echo hphase hnext =>
    rename_i uid event phase
    obtain ⟨done, todo, queued, hflow, hholds⟩ := (h hinitial).flows (by rw [hphase]; rfl)
    rw [Holds, hphase] at hholds
    obtain ⟨htodo, y, hy, huid⟩ := hholds
    obtain ⟨x, rfl, rfl⟩ := List.map_eq_singleton_iff.mp htodo
    refine .of_flow (fun _ _ _ => (h hinitial).acked_sends (by simp)) (hflow.goes _).sends ?_
    by_cases hown : x.toEvent.uid = uid
    · rw [if_pos hown] at hnext
      subst hnext
      exact ⟨rfl, x, List.mem_append_right _ (List.mem_singleton_self x), hown⟩
    · rw [if_neg hown] at hnext
      by_cases hlt : uid < x.toEvent.uid
      · rw [if_pos hlt] at hnext
        subst hnext
        exact rfl
      · rw [if_neg hlt] at hnext
        subst hnext
        refine ⟨rfl, y, ?_, huid⟩
        rcases List.mem_append.mp hy with hy | hy
        · rw [List.mem_singleton.mp hy] at huid
          exact absurd huid hown
        · exact hy
  | acknowledge hphase =>
    rename_i uid
    obtain ⟨done, todo, queued, hflow, hholds⟩ := (h hinitial).flows (by rw [hphase]; rfl)
    rw [Holds, hphase] at hholds
    obtain ⟨rfl, y, hy, huid⟩ : todo = [] ∧ _ := hholds
    refine .of_flow (fun before u after hsent => ?_) ((hflow.goes _).sends_other rfl) rfl
    rcases append_singleton_eq hsent with ⟨hack, rfl⟩ | ⟨after', heq⟩
    · cases hack
      refine ⟨⟨y, ?_, huid⟩, fun x hx hle => ?_⟩
      · have hmem : y ∈ s.logAfter k := by
          rw [hflow.split, List.append_assoc, List.append_assoc]
          exact List.mem_append_left _ hy
        exact List.mem_of_mem_filter hmem
      · have hdone := hflow.mem_done hs hy hx (hle.trans_eq huid.symm)
        have hnotices := hflow.notices
        rw [Connection.notices] at hnotices
        show x.toNotice ∈ noticesIn k.sent
        rw [hnotices]
        exact List.mem_map_of_mem hdone
    · exact (h hinitial).acked before u after' heq
  | close => exact (h hinitial).close _

/-- Committing and retreating only change where the connection is. -/
theorem Ordered.goes {request : Request} {phase : Phase} (h : Ordered s k)
    (hphase : k.phase = .committing request)
    (hholds : ∀ {done queued}, Holds (k.goes phase) done [] queued) : Ordered s (k.goes phase) := by
  obtain ⟨done, todo, queued, hflow, htodo⟩ := h.flows (by rw [hphase]; rfl)
  rw [Holds, hphase] at htodo
  obtain rfl : todo = [] := htodo
  exact .of_flow h.acked (hflow.goes _) hholds

end

/-! ## Runs -/

/-- A server whose connections all follow their vaults in order. -/
structure InOrder (s : State C) : Prop where
  sound : Sound s
  complete : Complete s.db s.log
  ordered : ∀ c, (s.conns c).initial = false → Ordered s (s.conns c)

namespace InOrder

theorem start (store : Store) (h : History store.db store.db.history) :
    InOrder (State.start (C := C) store store.db.history) where
  sound := .start store _ h
  complete := by
    have hlog : (State.start (C := C) store store.db.history).log = store.db.history :=
      List.append_nil _
    rw [hlog]
    exact complete_history store.db
  ordered _ _ := .of_sent_nil rfl rfl

variable {s s' : State C} {a : Action C}

variable [DecidableEq C]

theorem commit (h : InOrder s) {c : C} {t : Readings} {request : Request} {answer : Answer}
    {store : Store} {r : Revision} (hphase : (s.conns c).phase = .committing request)
    (he : Effect s.db t request answer store.db) (hr : answer.revision? = some r)
    (hsound : Sound (s.commit c store r)) : InOrder (s.commit c store r) := by
  obtain ⟨hchange, hcommits⟩ := h.sound.commits hphase he hr
  refine ⟨hsound, ?_, ?_⟩
  · rw [hcommits.log]
    exact h.complete.change hchange
  · refine (Function.forall_update_iff s.conns fun _ k => k.initial = false → Ordered _ k).mpr
      ⟨fun hinitial => ?_, fun c' _ hinitial => (h.ordered c' hinitial).commit hcommits⟩
    have hcommitted : Ordered s ((s.conns c).goes (.committed r)) :=
      (h.ordered c hinitial).goes hphase rfl
    exact hcommitted.commit hcommits

theorem publish (h : InOrder s) {c : C} {r : Revision} (hphase : (s.conns c).phase = .committed r)
    (hsound : Sound (s.publish c r)) : InOrder (s.publish c r) := by
  obtain ⟨hpending, hvault⟩ := h.sound.pending c r hphase
  have hpublishes := h.sound.publishes hphase
  refine ⟨hsound, ?_, ?_⟩
  · rw [hpublishes.log]
    exact h.complete
  · refine (Function.forall_update_iff s.conns fun _ k => k.initial = false → Ordered _ k).mpr
      ⟨fun hinitial => ?_, fun c' _ hinitial => (h.ordered c' hinitial).publish hpublishes⟩
    have hordered := h.ordered c hinitial
    obtain ⟨done, todo, queued, hflow, hholds⟩ := hordered.flows (by rw [hphase]; rfl)
    rw [Holds, hphase] at hholds
    obtain rfl : todo = [] := hholds
    have hflow' : Flow (s.publish c r) (s.conns c) done []
        (queued ++ s.pendingOf (s.conns c).vault) :=
      hflow.of_queue fun hq => hq.publish hpublishes
    refine .of_flow (hordered.publish hpublishes).acked (hflow'.goes _) ⟨rfl, r, ?_, rfl⟩
    · rw [State.pendingOf, hpending]
      exact List.mem_append_right _ (by simp [hvault])

theorem step (h : InOrder s) (hpurges : a.purges = false) (hstep : Step s a s') : InOrder s' := by
  have hsound := h.sound.step hstep
  cases hstep with
  | move hmove hne hlock =>
    refine ⟨hsound, h.complete, ?_⟩
    exact (Function.forall_update_iff s.conns fun _ k => k.initial = false → Ordered _ k).mpr
      ⟨fun hinitial => (Ordered.move h.sound h.complete (h.ordered _) hmove hinitial).same
        ⟨rfl, rfl, rfl, rfl⟩,
        fun c' _ hinitial => (h.ordered c' hinitial).same ⟨rfl, rfl, rfl, rfl⟩⟩
  | commit hphase _ _ he hr => exact h.commit hphase he hr hsound
  | retreat hphase hchange =>
    rename_i c _ _ _
    refine ⟨hsound, ?_, ?_⟩
    · have hcomplete := h.complete.change hchange
      rw [Option.toList, List.append_nil] at hcomplete
      exact hcomplete
    · refine (Function.forall_update_iff s.conns fun _ k => k.initial = false → Ordered _ k).mpr
        ⟨fun hinitial => ?_,
          fun c' _ hinitial => (h.ordered c' hinitial).same (Sound.same_retreat hchange)⟩
      have hlive : Ordered s ((s.conns c).goes .live) := (h.ordered _ hinitial).goes hphase rfl
      exact hlive.same (Sound.same_retreat hchange)
  | publish hphase _ => exact h.publish hphase hsound
  | oversized hphase hsize =>
    exact absurd (h.sound.size _ (h.sound.pending _ _ hphase).1) (not_le.mpr hsize)
  | store hflag hchange =>
    rename_i purges store
    cases purges with
    | true => exact absurd (hflag rfl) (by simp [hpurges])
    | false =>
      refine ⟨hsound, ?_, fun c hinitial => ?_⟩
      · have hcomplete := h.complete.change hchange
        rw [Option.toList, List.append_nil] at hcomplete
        exact hcomplete
      · exact (h.ordered c hinitial).same ⟨rfl, rfl, rfl, hchange.sequence_eq⟩

end InOrder

end Blackglass.Stream
