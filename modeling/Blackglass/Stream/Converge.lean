import Blackglass.Stream.Changes
import Blackglass.Stream.Replica

/-!
# Replicas converge

Whatever pushes, uploads, restores and purges happen during the replay of a client and
after it, a client that has been told it is ready and has nothing left in its queue holds
the heads of the vault.  The argument is about one connection and the history of its vault;
purges need no case of their own, because they do not change the history and every page is
read from what a purge leaves of it.
-/

namespace Blackglass.Stream

open Broadcast Transition LastWriter

variable {C : Type*}

/-- What the replica of a connection is right about, if `before` is the history up to the
queue. -/
def Sees (log : List Revision) (k : Connection) (before : List Revision) : Prop :=
  match k.phase with
  | .replay cursor page more => (∀ x ∈ before, x.uid ≤ k.ready) ∧
      Replaying log k.vault k.initial k.ready (k.replica log) cursor page more
  | .sending event | .echoing _ event => ∃ old x, before = old ++ [x] ∧ x.toEvent = event ∧
      Agrees log k.vault (k.replica log) (· ∈ old)
  | _ => Agrees log k.vault (k.replica log) (· ∈ before)

/-- A connection that will make its client converge. -/
def Converging (s : State C) (k : Connection) : Prop :=
  k.phase.subscribed = true → (k.initial = false → k.version ≤ k.ready) ∧
    ∃ before queued, Queue s k before queued ∧ Sees s.log k before

section

variable {s s' : State C} {k : Connection} {before queued : List Revision} {r : Revision}

/-! ## Changes of the rest of the server -/

theorem Sees.commit {log : List Revision} (h : Sees log k before)
    (hversion : k.initial = false → k.version ≤ k.ready) (hready : k.ready < r.uid)
    (hbefore : r ∉ before) : Sees (log ++ [r]) k before := by
  have hreplica : k.replica (log ++ [r]) = k.replica log :=
    replica_append fun hi => (hversion hi).trans_lt hready
  unfold Sees at h ⊢
  rw [hreplica]
  split at h
  · exact ⟨h.1, h.2.commit hready⟩
  · obtain ⟨old, x, rfl, hx, hagrees⟩ := h
    exact ⟨old, x, rfl, hx, hagrees.commit fun hold => hbefore (List.mem_append_left _ hold)⟩
  · obtain ⟨old, x, rfl, hx, hagrees⟩ := h
    exact ⟨old, x, rfl, hx, hagrees.commit fun hold => hbefore (List.mem_append_left _ hold)⟩
  · exact h.commit hbefore

theorem Converging.same (h : Converging s k) (hsame : Same s s') : Converging s' k := by
  intro hk
  obtain ⟨hversion, before, queued, hqueue, hsees⟩ := h hk
  refine ⟨hversion, before, queued, hqueue.same hsame, ?_⟩
  rw [hsame.log]
  exact hsees

theorem Converging.commit (h : Converging s k) (hcommits : Commits s s' r) : Converging s' k := by
  intro hk
  obtain ⟨hversion, before, queued, hqueue, hsees⟩ := h hk
  refine ⟨hversion, before, queued, hqueue.commit hcommits, ?_⟩
  rw [hcommits.log]
  refine hsees.commit hversion (hqueue.ready.trans_lt hcommits.sequence_lt) fun hr => ?_
  have hmem : r ∈ s.logOf k.vault := by
    rw [hqueue.split, List.append_assoc]
    exact List.mem_append_left _ hr
  exact lt_irrefl _ (hcommits.newer r (mem_logOf.mp hmem).1)

theorem Converging.publish (h : Converging s k) (hpublishes : Publishes s s' r) :
    Converging s' k := by
  intro hk
  obtain ⟨hversion, before, queued, hqueue, hsees⟩ := h hk
  refine ⟨hversion, before, _, hqueue.publish hpublishes, ?_⟩
  rw [hpublishes.log]
  exact hsees

/-! ## Moves of the connection -/

theorem Agrees.mono {log : List Revision} {vault : String} {m : String → Option Int}
    {seen seen' : Revision → Prop} (h : Agrees log vault m seen)
    (hseen : ∀ x ∈ inVault log vault, seen' x → seen x) : Agrees log vault m seen' :=
  ⟨fun x hx hs => h.heads x hx (hseen x hx.1 hs), h.paths⟩

/-- An event that was taken off the queue is sent. -/
theorem Agrees.send {old : List Revision} {x : Revision} (hs : Sound s)
    (hqueue : Queue s k (old ++ [x]) queued)
    (h : Agrees s.log k.vault (k.replica s.log) (· ∈ old)) :
    Agrees s.log k.vault (LastWriter.write (k.replica s.log) x.entry) (· ∈ old ++ [x]) := by
  have hsplit : inVault s.log k.vault = old ++ [x] ++ queued ++ s.pendingOf k.vault := hqueue.split
  have hsorted := hs.sorted_logOf k.vault
  rw [hqueue.split, List.append_assoc, List.append_assoc] at hsorted
  have hx : x ∈ inVault s.log k.vault := by
    rw [hsplit]
    simp
  have hbefore : ∀ y ∈ old, y.uid < x.uid := fun y hy =>
    (List.pairwise_append.mp hsorted).2.2 y hy x List.mem_cons_self
  refine h.write hx (fun y hy hmem hpath => ?_) (fun y hy hmem hpath => ?_)
  · rcases List.mem_append.mp hmem with hmem | hmem
    · exact absurd (hbefore y hmem) (not_lt.mpr (hy.2 x hx hpath.symm))
    · exact List.mem_singleton.mp hmem
  · rcases List.mem_append.mp hmem with hmem | hmem
    · exact h.heads y hy hmem
    · rw [List.mem_singleton.mp hmem] at hpath
      exact absurd rfl hpath

/-- A new phase in which the client is right about as much as before. -/
theorem Converging.goes {phase : Phase} (h : Converging s k)
    (hagrees : ∀ before, Sees s.log k before → Sees s.log (k.goes phase) before)
    (hsub : phase.subscribed = true → k.phase.subscribed = true) : Converging s (k.goes phase) := by
  intro hk
  obtain ⟨hversion, before, queued, hqueue, hsees⟩ := h (hsub hk)
  exact ⟨hversion, before, queued, hqueue.congr rfl rfl rfl, hagrees before hsees⟩

theorem Converging.move {c : C} {k' : Connection} (hs : Sound s) (h : Converging s (s.conns c))
    (hmove : Move s (s.conns c) k') : Converging s k' := by
  generalize hk : s.conns c = k at h hmove
  cases hmove with
  | init hphase _ =>
    intro hsub
    cases hsub
  | readVersion hphase =>
    intro hsub
    cases hsub
  | subscribe hphase hversion =>
    intro _
    have hsent : k.sent = [] := hk ▸ hs.fresh c (by rw [hk, hphase]; rfl)
    have hnone : s.pending = none :=
      hs.pending_eq_none (c := c) (by rw [hk, hphase]; rfl) (by simp [hk, hphase])
    have hready : k.ready = s.db.currentVersion k.vault := hk ▸ hs.initRead c (by rw [hk, hphase])
    refine ⟨hversion, s.logOf k.vault, [], .subscribe hs hnone hready _, fun x hx => ?_, ?_⟩
    · obtain ⟨hmem, hvault⟩ := mem_logOf.mp hx
      show x.uid ≤ k.ready
      rw [hready, ← hvault]
      exact hs.history.version x hmem
    · have hreplica : ({ k with
          phase := .replay (if k.initial then 0 else k.version) [] true
          receiver := subscribe (s.topics k.vault) } : Connection).replica s.log =
            k.firstMap s.log := by
        rw [Connection.replica, Connection.notices, hsent]
        rfl
      rw [hreplica]
      refine .start hs.history.sorted hs.history.pos ?_ hversion
      rw [hready]
      exact hs.history.versionNonneg _
  | fetch hphase =>
    rename_i cursor
    intro _
    obtain ⟨hversion, before, queued, hqueue, hsees⟩ := h (by rw [hphase]; rfl)
    rw [Sees, hphase] at hsees
    obtain ⟨hle, hreplaying⟩ := hsees
    refine ⟨hversion, before, queued, hqueue.congr rfl rfl rfl, hle, ?_⟩
    show Replaying s.log k.vault k.initial k.ready (k.replica s.log) cursor (s.page k cursor)
      (replayPageSize ≤ (s.page k cursor).length)
    unfold State.page
    cases hinitial : k.initial with
    | true =>
      rw [hinitial] at hreplaying
      exact hreplaying.fetch_snapshot hs.history s.store.constraints
    | false =>
      rw [hinitial] at hreplaying
      exact hreplaying.fetch_changes hs.history s.store.constraints
  | replay hphase =>
    intro _
    obtain ⟨hversion, before, queued, hqueue, hsees⟩ := h (by rw [hphase]; rfl)
    rw [Sees, hphase] at hsees
    refine ⟨hversion, before, queued, hqueue.congr rfl rfl rfl, hsees.1, ?_⟩
    rw [replica_sends]
    exact hsees.2.write hs.history.sorted
  | ready hphase =>
    intro _
    obtain ⟨hversion, before, queued, hqueue, hsees⟩ := h (by rw [hphase]; rfl)
    rw [Sees, hphase] at hsees
    refine ⟨hversion, before, queued, hqueue.congr rfl rfl rfl, ?_⟩
    show Agrees s.log k.vault (((k.goes .live).sends (.ready k.ready)).replica s.log) (· ∈ before)
    rw [replica_sends_other rfl]
    exact (hsees.2.finished hs.history.sorted).mono fun x _ hx => hsees.1 x hx
  | begin hphase _ =>
    exact h.goes (fun _ => by rw [Sees, hphase]; exact id) fun _ => by rw [hphase]; rfl
  | receive hphase hvalue =>
    intro _
    obtain ⟨hversion, before, queued, hqueue, hsees⟩ := h (by rw [hphase]; rfl)
    rw [Sees, hphase] at hsees
    obtain ⟨x, rest, rfl, hx, hqueue'⟩ := hqueue.receive hvalue (.sending _)
    exact ⟨hversion, _, rest, hqueue', before, x, rfl, hx, hsees⟩
  | receiveEcho hphase hvalue =>
    intro _
    obtain ⟨hversion, before, queued, hqueue, hsees⟩ := h (by rw [hphase]; rfl)
    rw [Sees, hphase] at hsees
    obtain ⟨x, rest, rfl, hx, hqueue'⟩ := hqueue.receive hvalue (.echoing _ _)
    exact ⟨hversion, _, rest, hqueue', before, x, rfl, hx, hsees⟩
  | send hphase =>
    intro _
    obtain ⟨hversion, before, queued, hqueue, hsees⟩ := h (by rw [hphase]; rfl)
    rw [Sees, hphase] at hsees
    obtain ⟨old, x, rfl, rfl, hagrees⟩ := hsees
    refine ⟨hversion, _, queued, hqueue.congr rfl rfl rfl, ?_⟩
    have hsent := hagrees.send hs hqueue
    rw [← replica_goes .live, ← replica_sends] at hsent
    exact hsent
  | echo hphase hnext =>
    rename_i uid event phase
    intro hsub
    obtain ⟨hversion, before, queued, hqueue, hsees⟩ := h (by rw [hphase]; rfl)
    rw [Sees, hphase] at hsees
    obtain ⟨old, x, rfl, rfl, hagrees⟩ := hsees
    refine ⟨hversion, _, queued, hqueue.congr rfl rfl rfl, ?_⟩
    have hsent := hagrees.send hs hqueue
    rw [← replica_goes phase, ← replica_sends] at hsent
    by_cases hown : x.toEvent.uid = uid
    · rw [if_pos hown] at hnext
      subst hnext
      exact hsent
    · rw [if_neg hown] at hnext
      by_cases hlt : uid < x.toEvent.uid
      · rw [if_pos hlt] at hnext
        subst hnext
        exact hsent
      · rw [if_neg hlt] at hnext
        subst hnext
        exact hsent
  | acknowledge hphase =>
    rename_i uid
    intro _
    obtain ⟨hversion, before, queued, hqueue, hsees⟩ := h (by rw [hphase]; rfl)
    rw [Sees, hphase] at hsees
    refine ⟨hversion, before, queued, hqueue.congr rfl rfl rfl, ?_⟩
    show Agrees s.log k.vault (((k.goes .live).sends (.ack uid)).replica s.log) (· ∈ before)
    rw [replica_sends_other rfl]
    exact hsees
  | close =>
    intro hsub
    cases hsub

end

/-! ## Runs -/

/-- Every connection makes its client converge. -/
structure Convergent (s : State C) : Prop where
  sound : Sound s
  conns : ∀ c, Converging s (s.conns c)

section

theorem Convergent.start {store : Store} {log : List Revision} (h : History store.db log) :
    Convergent (State.start (C := C) store log) where
  sound := .start store log h
  conns _ := fun hsub => nomatch hsub

variable [DecidableEq C] {s s' : State C} {a : Action C} {as : List (Action C)}

theorem Convergent.step (h : Convergent s) (hstep : Step s a s') : Convergent s' := by
  have hsound := h.sound.step hstep
  cases hstep with
  | move hmove hne hlock =>
    exact ⟨hsound, (Function.forall_update_iff s.conns fun _ k => Converging _ k).mpr
      ⟨((h.conns _).move h.sound hmove).same ⟨rfl, rfl, rfl, rfl⟩,
        fun c' _ => (h.conns c').same ⟨rfl, rfl, rfl, rfl⟩⟩⟩
  | @commit c _ _ _ store r hphase _ _ he hr =>
    obtain ⟨-, hcommits⟩ := h.sound.commits hphase he hr
    have hcommitted : Converging s ((s.conns c).goes (.committed r)) :=
      (h.conns c).goes (fun _ => by rw [Sees, hphase]; exact id) fun _ => by rw [hphase]; rfl
    exact ⟨hsound, (Function.forall_update_iff s.conns fun _ k => Converging _ k).mpr
      ⟨hcommitted.commit hcommits, fun c' _ => (h.conns c').commit hcommits⟩⟩
  | @retreat c _ _ store hphase hchange =>
    have hlive : Converging s ((s.conns c).goes .live) :=
      (h.conns c).goes (fun _ => by rw [Sees, hphase]; exact id) fun _ => by rw [hphase]; rfl
    exact ⟨hsound, (Function.forall_update_iff s.conns fun _ k => Converging _ k).mpr
      ⟨hlive.same (Sound.same_retreat hchange),
        fun c' _ => (h.conns c').same (Sound.same_retreat hchange)⟩⟩
  | @publish c r hphase _ =>
    have hpublishes := h.sound.publishes hphase
    have hwaiting : Converging s ((s.conns c).goes (.waiting r.uid)) :=
      (h.conns c).goes (fun _ => by rw [Sees, hphase]; exact id) fun _ => by rw [hphase]; rfl
    exact ⟨hsound, (Function.forall_update_iff s.conns fun _ k => Converging _ k).mpr
      ⟨hwaiting.publish hpublishes, fun c' _ => (h.conns c').publish hpublishes⟩⟩
  | oversized hphase hsize =>
    exact absurd (h.sound.size _ (h.sound.pending _ _ hphase).1) (not_le.mpr hsize)
  | @store _ purges store hflag hchange =>
    exact ⟨hsound, fun c => (h.conns c).same ⟨rfl, rfl, rfl, hchange.sequence_eq⟩⟩

theorem Convergent.run (h : Convergent s) (hrun : Run Next s as s') : Convergent s' := by
  refine Run.invariant ?_ h hrun
  intro s a s' h hnext
  exact h.step (h.sound.next hnext).1

end

/-! ## Convergence -/

section

variable {s : State C} {log : List Revision} {vault : String} {m : String → Option Int}

theorem newest_of_isHead {e : Entry String}
    (h : IsHead ((inVault log vault).map Revision.entry) e) :
    ∃ x, Newest log vault x ∧ x.entry = e := by
  obtain ⟨he, hmax⟩ := h
  obtain ⟨x, hx, rfl⟩ := List.mem_map.mp he
  exact ⟨x, ⟨hx, fun y hy hpath => hmax _ (List.mem_map_of_mem hy) hpath⟩, rfl⟩

/-- A replica that is right about all paths is the map of the heads of the history. -/
theorem Agrees.eq_current {seen : Revision → Prop}
    (hsorted : log.Pairwise fun x y => x.uid < y.uid) (h : Agrees log vault m seen)
    (hseen : ∀ x ∈ inVault log vault, seen x) :
    m = current ((inVault log vault).map Revision.entry) := by
  refine LastWriter.eq_current ?_ (fun e he => ?_) (fun p hp => h.paths p fun x hx => ?_)
  · rw [List.map_map]
    exact nodup_of_sorted (hsorted.filter _)
  · obtain ⟨x, hx, rfl⟩ := newest_of_isHead he
    exact h.heads x hx (hseen x hx.1)
  · exact hp x.entry (List.mem_map_of_mem hx)

/-- Purges do not change the heads: those of the database are those of the history. -/
theorem heads_eq_current {db : Database} (hc : Constraints db) (h : History db log) :
    db.heads vault = current ((inVault log vault).map Revision.entry) := by
  have hmem : ∀ {r}, r ∈ db.revisionsOf vault ↔ r ∈ db.revisions ∧ r.vaultId = vault := by
    simp [Database.revisionsOf]
  refine Agrees.eq_current h.sorted ⟨fun x hx _ => ?_, fun p hp => ?_⟩
    fun _ _ => trivial
  · obtain ⟨r, hr, rfl⟩ := stored_of_newest h hx
    have hvault : r.vaultId = vault := (mem_inVault.mp hx.1).2
    refine current_of_isHead ?_ ⟨List.mem_map_of_mem (hmem.mpr ⟨hr, hvault⟩), ?_⟩
    · rw [List.map_map]
      exact (hc.revisionUid.sublist ((List.filter_sublist ..).map _))
    · intro e he hpath
      obtain ⟨r', hr', rfl⟩ := List.mem_map.mp he
      obtain ⟨hr', hvault'⟩ := hmem.mp hr'
      exact hx.2 _ (mem_inVault.mpr ⟨h.stored r' hr', hvault'⟩) hpath
  · refine current_of_forall_ne fun e he hpath => ?_
    obtain ⟨r, hr, rfl⟩ := List.mem_map.mp he
    obtain ⟨hr, hvault⟩ := hmem.mp hr
    exact hp _ (mem_inVault.mpr ⟨h.stored r hr, hvault⟩) hpath

/-- A connection that was told it is ready and has no event in hand. -/
def Phase.told : Phase → Bool
  | .live | .committing _ | .committed _ | .waiting _ | .acknowledging _ => true
  | _ => false

/-- A client that was told it is ready and has received all that was committed to its vault.
Its connection is open, so its queue has never overflowed at a receive. -/
structure Drained (s : State C) (k : Connection) : Prop where
  told : k.phase.told = true
  queue : s.undelivered k = []
  published : s.pendingOf k.vault = []

theorem Sees.of_told {k : Connection} {before : List Revision} (h : Sees log k before)
    (htold : k.phase.told = true) : Agrees log k.vault (k.replica log) (· ∈ before) := by
  unfold Sees at h
  split at h
  all_goals simp_all [Phase.told]

theorem subscribed_of_told {phase : Phase} (h : phase.told = true) : phase.subscribed = true := by
  cases phase <;> first | rfl | cases h

theorem Converging.eq_heads {k : Connection} (hs : Sound s) (h : Converging s k)
    (hdrained : Drained s k) : k.replica s.log = s.db.heads k.vault := by
  obtain ⟨htold, hqueue, hpublished⟩ := hdrained
  obtain ⟨-, before, queued, hq, hsees⟩ := h (subscribed_of_told htold)
  have hnil : queued = [] := List.map_eq_nil_iff.mp (hq.queue.symm.trans hqueue)
  have hsplit : inVault s.log k.vault = before := by
    have hsplit := hq.split
    rw [hnil, hpublished, List.append_nil, List.append_nil] at hsplit
    exact hsplit
  have hheads : s.db.heads k.vault = current ((inVault s.log k.vault).map Revision.entry) :=
    heads_eq_current s.store.constraints hs.history
  rw [hheads]
  refine (hsees.of_told htold).eq_current hs.history.sorted fun x hx => ?_
  rw [hsplit] at hx
  exact hx

/-- A client that starts with nothing, or with the heads of its vault at a version, and
applies what it is sent, has the heads of its vault once it was told it is ready and its
queue is empty. -/
theorem replica_eq_heads_of_run [DecidableEq C] {store : Store} {as : List (Action C)} {c : C}
    (hhistory : History store.db log) (hrun : Run Next (State.start store log) as s)
    (hdrained : Drained s (s.conns c)) {m : String → Option Int}
    (hinitial : (s.conns c).initial = true → m = fun _ => none)
    (hversion : (s.conns c).initial = false →
      m = headsAt s.log (s.conns c).vault (s.conns c).version) :
    writeAll m ((s.conns c).notices.map PushNotice.entry) = s.db.heads (s.conns c).vault := by
  have hconvergent := (Convergent.start hhistory).run hrun
  have hm : m = (s.conns c).firstMap s.log := by
    unfold Connection.firstMap
    cases h : (s.conns c).initial with
    | true => exact hinitial h
    | false => exact hversion h
  rw [hm]
  exact (hconvergent.conns c).eq_heads hconvergent.sound hdrained

end

/-! ## A purge during a replay -/

/-- The connection `c` initialises as a new client, up to its subscription. -/
def joinEmpty (c : Bool) : List (Action Bool) :=
  [.init c "vault" true 0, .readVersion c, .subscribe c]

/-- A connection pushes a note and is acknowledged. -/
def pushNote (c : Bool) : List (Action Bool) :=
  [.begin c (.addFileRevision (notePush false 3 1) someTokenHash [1, 2, 3] 10 10),
    .transact c ⟨500, 500⟩, .publish c, .receive c, .send c, .send c]

/-- The connection `true` is to replay the first revision of a note, but before it reads its
page there is a second one, and the first is purged. -/
def purgedReplay : List (Action Bool) :=
  connect false ++ [.ready false] ++ pushNote false ++ joinEmpty true ++ pushNote false ++
    [.purge 1 someTokenHash "vault" ⟨500, 500⟩, .fetch true, .ready true, .receive true, .send true]

/-- The client of the connection `true` has the second revision. -/
theorem replica_eq_heads_of_purged_replay : ∃ s : State Bool,
    Run Next (State.start personalStore personalStore.db.history) purgedReplay s ∧
      writeAll (fun _ => none) ((s.conns true).notices.map PushNotice.entry) = s.db.heads "vault" ∧
      s.db.heads "vault" "note" = some 2 := by
  have hrun : (purgedReplay.foldlM State.next
      (State.start personalStore personalStore.db.history)).map (fun s =>
        decide ((s.conns true).phase = .live ∧ s.undelivered (s.conns true) = [] ∧
          s.pendingOf (s.conns true).vault = [] ∧ (s.conns true).initial = true ∧
          (s.conns true).vault = "vault" ∧ s.db.heads "vault" "note" = some 2)) = some true := by
    decide +kernel
  obtain ⟨s, hs, h⟩ := Option.map_eq_some_iff.mp hrun
  obtain ⟨hphase, hqueue, hpublished, hinitial, hvault, hheads⟩ := of_decide_eq_true h
  have hrun : Run Next (State.start personalStore personalStore.db.history) purgedReplay s :=
    (Run.of_foldlM (fun _ _ => trivial) hs).of_guarded
  have hverify : Database.verifyConnection onePhc personalStore.db 500 = .ok () := by
    decide +kernel
  have hhistory := (LogicalInvariants.of_verifyConnection hverify).history personalStore.constraints
  refine ⟨s, hrun, ?_, hheads⟩
  rw [← hvault]
  exact replica_eq_heads_of_run hhistory hrun ⟨by rw [hphase]; rfl, hqueue, hpublished⟩
    (fun _ => rfl) (fun h => absurd h (by simp [hinitial]))

end Blackglass.Stream
