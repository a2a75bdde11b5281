import Blackglass.Stream.System
import Blackglass.Lib.Transition

/-!
# What a step of the server does

Most steps move one connection and read the rest (`Move`); the others commit a revision,
publish it, or change the database in a way that adds none.  `Step` says so once, and
`Sound` is what all of them keep: who has the lock, which revisions are committed and which
of them are still to be published.
-/

namespace Blackglass.Stream

open Broadcast Transition

variable {C : Type*}

def Action.purges : Action C → Bool
  | purge .. => true
  | _ => false

/-- A step of one connection that leaves everything else alone, but for the lock. -/
inductive Move (s : State C) : Connection → Connection → Prop where
  | init {k vault initial version} :
      k.phase = .idle → 0 ≤ version →
      Move s k { k with
        phase := .initLocked, vault := vault, initial := initial, version := version }
  | readVersion {k} :
      k.phase = .initLocked →
      Move s k { k with phase := .initRead, ready := s.db.currentVersion k.vault }
  | subscribe {k} :
      k.phase = .initRead → (k.initial = false → k.version ≤ k.ready) →
      Move s k { k with
        phase := .replay (if k.initial then 0 else k.version) [] true
        receiver := subscribe (s.topics k.vault) }
  | fetch {k cursor} :
      k.phase = .replay cursor [] true →
      Move s k (k.goes (.replay cursor (s.page k cursor)
        (replayPageSize ≤ (s.page k cursor).length)))
  | replay {k cursor r page more} :
      k.phase = .replay cursor (r :: page) more →
      Move s k ((k.goes (.replay r.uid page more)).sends (.notice r.toNotice))
  | ready {k cursor} :
      k.phase = .replay cursor [] false → Move s k ((k.goes .live).sends (.ready k.ready))
  | begin {k request} :
      k.phase = .live → request.commitsTo k.vault = true →
      Move s k (k.goes (.committing request))
  | receive {k event r} :
      k.phase = .live →
      k.receiver.receive eventCapacity (s.topics k.vault) = .value event r →
      Move s k { k with phase := .sending event, receiver := r }
  | receiveEcho {k uid event r} :
      k.phase = .waiting uid →
      k.receiver.receive eventCapacity (s.topics k.vault) = .value event r →
      Move s k { k with phase := .echoing uid event, receiver := r }
  | send {k event} :
      k.phase = .sending event → Move s k ((k.goes .live).sends (.notice event.notice))
  | echo {k uid event phase} :
      k.phase = .echoing uid event →
      phase = (if event.uid = uid then .acknowledging uid
        else if uid < event.uid then .closed else .waiting uid) →
      Move s k ((k.goes phase).sends (.notice event.notice))
  | acknowledge {k uid} :
      k.phase = .acknowledging uid → Move s k ((k.goes .live).sends (.ack uid))
  | close {k r} : Move s k { k with phase := .closed, receiver := r }

/-- What a move does to the lock. -/
def LockMove (c : C) (lock : Option C) (phase : Phase) (lock' : Option C) (phase' : Phase) : Prop :=
  (lock' = lock ∧ phase'.locked = phase.locked) ∨
    (lock = none ∧ lock' = some c ∧ phase'.locked = true) ∨
    (lock' = none ∧ phase.locked = true ∧ phase'.locked = false)

section

variable [DecidableEq C]

inductive Step (s : State C) : Action C → State C → Prop where
  | move {a c k lock} :
      Move s (s.conns c) k → (∀ r, (s.conns c).phase ≠ .committed r) →
      LockMove c s.lock (s.conns c).phase lock k.phase →
      Step s a { s.set c k with lock := lock }
  | commit {c t request answer store r} :
      (s.conns c).phase = .committing request → 0 ≤ t.now → t.now ≤ 9223372036854775807 →
      Effect s.db t request answer store.db → answer.revision? = some r →
      Step s (.transact c t) (s.commit c store r)
  /-- The transaction failed, or found nothing to restore. -/
  | retreat {c t request store} :
      (s.conns c).phase = .committing request → Change s.db false none store.db →
      Step s (.transact c t) (s.retreat c store)
  | publish {c r} :
      (s.conns c).phase = .committed r → r.toNotice.text.utf8ByteSize ≤ maxEventBytes →
      Step s (.publish c) (s.publish c r)
  | oversized {c r} :
      (s.conns c).phase = .committed r → maxEventBytes < r.toNotice.text.utf8ByteSize →
      Step s (.publish c) { s.set c ((s.conns c).goes .closed) with lock := none }
  | store {a purges store} :
      (purges = true → a.purges = true) → Change s.db purges none store.db →
      Step s a { s with store := store }

/-! ## Inversion -/

theorem change_of_commitsTo {db db' : Database} {t : Readings} {request : Request}
    {answer : Answer} {vault : String} (hc : Constraints db)
    (hcommits : request.commitsTo vault = true) (he : Effect db t request answer db') :
    Change db false answer.revision? db' := by
  cases he with
  | addEmptyRevision hok => exact (Effect.addEmptyRevision hok).change hc rfl
  | addFileRevision hok => exact (Effect.addFileRevision hok).change hc rfl
  | restore hok => exact (Effect.restore hok).change hc rfl
  | _ => cases hcommits

/-- A request that was executed commits or is rolled back. -/
theorem change_next (s : Store) (request : Request) (t : Readings)
    (hkeeps : request.keepsVaults = true)
    (hquiet : ∀ {answer db'}, Effect s.db t request answer db' → answer.revision? = none) :
    ∃ purges, (purges = true → request.purges = true) ∧
      Change s.db purges none (s.next request t).db := by
  generalize hnext : s.next request t = s'
  have hstep := s.step_next request t
  rw [hnext] at hstep
  cases hstep with
  | commit hok =>
    have he := execute_ok hok
    have hchange := he.change s.constraints hkeeps
    rw [hquiet he] at hchange
    exact ⟨_, id, hchange⟩
  | rollback => exact ⟨false, (fun h => nomatch h), .refl _⟩

variable {s s' : State C} {a : Action C}

theorem step_of_next (hcommits : ∀ c request, (s.conns c).phase = .committing request →
    request.commitsTo (s.conns c).vault = true) (h : s.next a = some s') : Step s a s' := by
  cases a with
  | init c vault initial version =>
    simp only [State.next, Option.ite_none_right_eq_some, Option.some.injEq] at h
    obtain ⟨⟨hphase, hlock, hversion⟩, rfl⟩ := h
    exact .move (.init hphase hversion) (by simp [hphase]) (.inr (.inl ⟨hlock, rfl, rfl⟩))
  | readVersion c =>
    simp only [State.next, Option.ite_none_right_eq_some, Option.some.injEq] at h
    obtain ⟨hphase, rfl⟩ := h
    exact .move (.readVersion hphase) (by simp [hphase]) (.inl ⟨rfl, by rw [hphase]; rfl⟩)
  | subscribe c =>
    simp only [State.next, Option.ite_none_right_eq_some] at h
    obtain ⟨hphase, h⟩ := h
    have hlocked : (s.conns c).phase.locked = true := by rw [hphase]; rfl
    split at h
    · cases h
      exact .move .close (by simp [hphase]) (.inr (.inr ⟨rfl, hlocked, rfl⟩))
    · rename_i hahead
      cases h
      refine .move (.subscribe hphase fun hinitial => ?_) (by simp [hphase])
        (.inr (.inr ⟨rfl, hlocked, rfl⟩))
      simpa [hinitial] using hahead
  | fetch c =>
    simp only [State.next] at h
    split at h
    · rename_i cursor hphase
      cases h
      exact .move (.fetch hphase) (by simp [hphase]) (.inl ⟨rfl, by rw [hphase]; rfl⟩)
    · cases h
  | ready c =>
    simp only [State.next] at h
    split at h
    · rename_i cursor hphase
      cases h
      exact .move (.ready hphase) (by simp [hphase]) (.inl ⟨rfl, by rw [hphase]; rfl⟩)
    · cases h
  | begin c request =>
    simp only [State.next, Option.ite_none_right_eq_some, Option.some.injEq] at h
    obtain ⟨⟨hphase, hlock, hto⟩, rfl⟩ := h
    exact .move (.begin hphase hto) (by simp [hphase]) (.inr (.inl ⟨hlock, rfl, rfl⟩))
  | transact c t =>
    simp only [State.next] at h
    split at h
    · rename_i request hphase
      simp only [Option.ite_none_right_eq_some] at h
      obtain ⟨⟨hnow₀, hnow₁⟩, h⟩ := h
      split at h
      · rename_i answer store hexecute
        have he := Store.effect_of_execute hexecute
        split at h
        · rename_i r hr
          cases h
          exact .commit hphase hnow₀ hnow₁ he hr
        · rename_i hr
          cases h
          have hchange := change_of_commitsTo s.store.constraints (hcommits c request hphase) he
          rw [hr] at hchange
          exact .retreat hphase hchange
      · cases h
        exact .retreat hphase (.refl _)
    · cases h
  | publish c =>
    simp only [State.next] at h
    split at h
    · rename_i r hphase
      split at h
      · rename_i hsize
        cases h
        exact .publish hphase hsize
      · rename_i hsize
        cases h
        exact .oversized hphase (not_le.mp hsize)
    · cases h
  | receive c =>
    simp only [State.next] at h
    split at h
    · rename_i hphase
      split at h
      · cases h
      · cases h
        exact .move .close (by simp [hphase]) (.inl ⟨rfl, by rw [hphase]; rfl⟩)
      · rename_i event r hvalue
        cases h
        exact .move (.receive hphase hvalue) (by simp [hphase]) (.inl ⟨rfl, by rw [hphase]; rfl⟩)
    · rename_i uid hphase
      split at h
      · cases h
      · cases h
        exact .move .close (by simp [hphase]) (.inl ⟨rfl, by rw [hphase]; rfl⟩)
      · rename_i event r hvalue
        cases h
        exact .move (.receiveEcho hphase hvalue) (by simp [hphase])
          (.inl ⟨rfl, by rw [hphase]; rfl⟩)
    · cases h
  | send c =>
    simp only [State.next] at h
    split at h
    · rename_i cursor r page more hphase
      cases h
      exact .move (.replay hphase) (by simp [hphase]) (.inl ⟨rfl, by rw [hphase]; rfl⟩)
    · rename_i event hphase
      cases h
      exact .move (.send hphase) (by simp [hphase]) (.inl ⟨rfl, by rw [hphase]; rfl⟩)
    · rename_i uid event hphase
      cases h
      refine .move (.echo hphase rfl) (by simp [hphase]) (.inl ⟨rfl, ?_⟩)
      rw [hphase]
      show Phase.locked (if event.uid = uid then _ else if uid < event.uid then _ else _) = false
      split
      · rfl
      · split <;> rfl
    · rename_i uid hphase
      cases h
      exact .move (.acknowledge hphase) (by simp [hphase]) (.inl ⟨rfl, by rw [hphase]; rfl⟩)
    · cases h
  | drop c =>
    simp only [State.next] at h
    split at h
    · cases h
    · rename_i hphase
      cases h
      refine .move .close hphase ?_
      split
      · rename_i hlocked
        exact .inr (.inr ⟨rfl, hlocked, rfl⟩)
      · rename_i hlocked
        exact .inl ⟨rfl, (Bool.eq_false_iff.mpr hlocked).symm⟩
  | control request t =>
    simp only [State.next, Option.ite_none_right_eq_some, Option.some.injEq] at h
    obtain ⟨hcontrol, rfl⟩ := h
    have hkeeps : request.keepsVaults = true := by
      cases request <;> first | rfl | cases hcontrol
    obtain ⟨purges, hpurges, hchange⟩ := change_next s.store request t hkeeps
      (fun he => by cases he <;> first | rfl | cases hcontrol)
    have hnot : request.purges = false := by
      cases request <;> first | rfl | cases hcontrol
    refine .store (fun hp => ?_) hchange
    rw [hpurges hp] at hnot
    cases hnot
  | sessions rows =>
    simp only [State.next, Option.map_eq_some_iff] at h
    obtain ⟨store, hstore, rfl⟩ := h
    unfold Store.withSessions at hstore
    split at hstore
    · cases hstore
      have hchange : Change s.db false none { s.db with sessions := rows } :=
        .of_vaults rfl rfl rfl
      refine .store ?_ hchange
      exact fun hp => nomatch hp
    · cases hstore
  | purge userId tokenHash vault t =>
    simp only [State.next, Option.ite_none_right_eq_some, Option.some.injEq] at h
    obtain ⟨-, rfl⟩ := h
    obtain ⟨purges, -, hchange⟩ := change_next s.store (.purge userId tokenHash vault) t rfl
      (fun he => by cases he; rfl)
    exact .store (fun _ => rfl) hchange

end

/-! ## The lock and the log -/

/-- What a connection commits goes to its own vault, and its notice fits into an event. -/
theorem bounds_of_commitsTo {db db' : Database} {t : Readings} {request : Request}
    {answer : Answer} {vault : String} {r : Revision} (hc : Constraints db)
    (hnonneg : 0 ≤ (db.sequence "revisions").getD 0)
    (hnow₀ : 0 ≤ t.now) (hnow₁ : t.now ≤ 9223372036854775807)
    (hcommits : request.commitsTo vault = true) (he : Effect db t request answer db')
    (hr : answer.revision? = some r) :
    r.vaultId = vault ∧ r.toNotice.text.utf8ByteSize ≤ maxEventBytes := by
  have huid₀ : 0 ≤ db.nextRevisionUid := (nextRowid_pos hnonneg).le
  have hpush : ∀ revision : NewRevision,
      (revision.vaultId = vault && serializedNoticeSize revision ≤ maxEventBytes) = true →
      db.nextRevisionUid ≤ maxJsSafeInteger →
      r = { revision.toRow none t.now with uid := db.nextRevisionUid }.toRevision →
      r.vaultId = vault ∧ r.toNotice.text.utf8ByteSize ≤ maxEventBytes := by
    rintro revision hadmitted huid rfl
    simp only [Bool.and_eq_true, decide_eq_true_eq] at hadmitted
    refine ⟨hadmitted.1, le_trans ?_ hadmitted.2⟩
    exact text_le_serializedNoticeSize revision huid₀ (huid.trans (by decide)) hnow₀ hnow₁
  cases he with
  | addEmptyRevision hok =>
    obtain ⟨hchecked, -, -, -, rfl, -⟩ := addEmptyRevisionInternal_ok hok
    exact hpush _ hcommits hchecked.uid (Option.some.inj hr).symm
  | addFileRevision hok =>
    obtain ⟨hchecked, -, -, -, -, -, -, rfl, -⟩ := addFileRevisionInternal_ok hok
    exact hpush _ hcommits hchecked.uid (Option.some.inj hr).symm
  | restore hok =>
    obtain ⟨rfl, -, -⟩ | ⟨target, source, content, hrestored⟩ := restoreInternal_ok hc hok
    · cases hr
    · refine ⟨?_, hrestored.notice r hr⟩
      have heq := hrestored.answer.symm.trans hr
      rw [← Option.some.inj heq]
      exact hrestored.source_vault.trans (by simpa [Request.commitsTo] using hcommits)
  | _ => cases hcommits

variable {s s' : State C} {a : Action C}

/-- The phases that hold more than where they are. -/
theorem Move.phase {k k' : Connection} (h : Move s k k') :
    (∀ r, k'.phase ≠ .committed r) ∧
      (∀ request, k'.phase = .committing request → request.commitsTo k'.vault = true) ∧
      (k'.phase = .initRead → k'.ready = s.db.currentVersion k'.vault) ∧
      (k'.phase.fresh = true → k.phase.fresh = true ∧ k'.sent = k.sent) := by
  cases h with
  | init hphase =>
    refine ⟨(fun _ hr => nomatch hr), (fun _ hr => nomatch hr), (fun hr => nomatch hr),
      fun _ => ?_⟩
    exact ⟨by rw [hphase]; rfl, rfl⟩
  | begin hphase hto =>
    refine ⟨(fun _ hr => nomatch hr), fun request hr => ?_, (fun hr => nomatch hr),
      (fun hr => nomatch hr)⟩
    cases hr
    exact hto
  | readVersion hphase =>
    refine ⟨(fun _ hr => nomatch hr), (fun _ hr => nomatch hr), fun _ => rfl, fun _ => ?_⟩
    exact ⟨by rw [hphase]; rfl, rfl⟩
  | echo hphase hnext =>
    subst hnext
    simp only [Connection.sends, Connection.goes]
    split
    · simp [Phase.fresh]
    · split <;> simp [Phase.fresh]
  | _ =>
    exact ⟨(fun _ hr => nomatch hr), (fun _ hr => nomatch hr), (fun hr => nomatch hr),
      (fun hr => nomatch hr)⟩

/-- Who has the lock, what is committed, and what of it is still to be published. -/
structure Sound (s : State C) : Prop where
  held : ∀ c, (s.conns c).phase.locked = true ↔ s.lock = some c
  committing : ∀ c request, (s.conns c).phase = .committing request →
    request.commitsTo (s.conns c).vault = true
  pending : ∀ c r, (s.conns c).phase = .committed r →
    s.pending = some r ∧ r.vaultId = (s.conns c).vault
  committed : ∀ r, s.pending = some r → ∃ c, (s.conns c).phase = .committed r
  size : ∀ r, s.pending = some r → r.toNotice.text.utf8ByteSize ≤ maxEventBytes
  initRead : ∀ c, (s.conns c).phase = .initRead →
    (s.conns c).ready = s.db.currentVersion (s.conns c).vault
  fresh : ∀ c, (s.conns c).phase.fresh = true → (s.conns c).sent = []
  history : History s.db s.log

namespace Sound

/-- Only one connection has the lock. -/
theorem eq_of_locked (h : Sound s) {c c' : C} (hc : (s.conns c).phase.locked = true)
    (hc' : (s.conns c').phase.locked = true) : c' = c :=
  Option.some.inj (((h.held c').mp hc').symm.trans ((h.held c).mp hc))

/-- While one connection has the lock for something else, everything committed is
published. -/
theorem pending_eq_none (h : Sound s) {c : C} (hc : (s.conns c).phase.locked = true)
    (hne : ∀ r, (s.conns c).phase ≠ .committed r) : s.pending = none := by
  cases hpending : s.pending with
  | none => rfl
  | some r =>
    obtain ⟨c', hc'⟩ := h.committed r hpending
    have heq := h.eq_of_locked hc (by rw [hc']; rfl)
    exact absurd (heq ▸ hc') (hne r)

theorem start (store : Store) (log : List Revision) (h : History store.db log) :
    Sound (State.start (C := C) store log) where
  held c := by simp [State.start, Connection.new, Phase.locked]
  committing c request hr := nomatch hr
  pending c r hr := nomatch hr
  committed r hr := nomatch hr
  size r hr := nomatch hr
  initRead c hr := nomatch hr
  fresh c _ := rfl
  history := by
    have hlog : (State.start (C := C) store log).log = log := List.append_nil log
    rw [hlog]
    exact h

/-- The database changes, and nothing is committed. -/
theorem store (h : Sound s) {purges : Bool} {store : Store}
    (hchange : Change s.db purges none store.db) : Sound { s with store := store } where
  held := h.held
  committing := h.committing
  pending := h.pending
  committed := h.committed
  size := h.size
  initRead c hread := (h.initRead c hread).trans (hchange.currentVersion_eq _).symm
  fresh := h.fresh
  history := by
    have hhistory := h.history.change s.store.constraints hchange
    rw [Option.toList, List.append_nil] at hhistory
    exact hhistory

variable [DecidableEq C]

/-- A connection moves. -/
theorem move (h : Sound s) {c : C} {k : Connection} {lock : Option C}
    (hmove : Move s (s.conns c) k) (hne : ∀ r, (s.conns c).phase ≠ .committed r)
    (hlock : LockMove c s.lock (s.conns c).phase lock k.phase) :
    Sound { s.set c k with lock := lock } := by
  obtain ⟨hcommitted, hcommitting, hinitRead, hfresh⟩ := hmove.phase
  refine ⟨?_, ?_, ?_, fun r hr => ?_, h.size, ?_, ?_, h.history⟩
  · refine (Function.forall_update_iff s.conns fun c' k => k.phase.locked = true ↔ _).mpr
      ⟨?_, fun c' hc => ?_⟩
    · rcases hlock with ⟨rfl, heq⟩ | ⟨-, rfl, hk⟩ | ⟨rfl, -, hk⟩
      · rw [heq]
        exact h.held c
      · simp [hk]
      · simp [hk]
    · rcases hlock with ⟨rfl, -⟩ | ⟨hfree, rfl, -⟩ | ⟨rfl, hheld, -⟩
      · exact h.held c'
      · rw [h.held c', hfree]
        simpa using fun heq => hc heq.symm
      · rw [h.held c', (h.held c).mp hheld]
        simpa using fun heq => hc heq.symm
  · exact (Function.forall_update_iff s.conns fun _ k => ∀ request,
      k.phase = .committing request → request.commitsTo k.vault = true).mpr
      ⟨hcommitting, fun c' _ => h.committing c'⟩
  · exact (Function.forall_update_iff s.conns fun _ k => ∀ r,
      k.phase = .committed r → s.pending = some r ∧ r.vaultId = k.vault).mpr
      ⟨fun r hr => absurd hr (hcommitted r), fun c' _ => h.pending c'⟩
  · obtain ⟨c', hc'⟩ := h.committed r hr
    have hc : c' ≠ c := by
      rintro rfl
      exact hne r hc'
    exact ⟨c', by simpa [Function.update_of_ne hc] using hc'⟩
  · exact (Function.forall_update_iff s.conns fun _ k => k.phase = .initRead →
      k.ready = s.db.currentVersion k.vault).mpr ⟨hinitRead, fun c' _ => h.initRead c'⟩
  · refine (Function.forall_update_iff s.conns fun _ k => k.phase.fresh = true →
      k.sent = []).mpr ⟨fun hk => ?_, fun c' _ => h.fresh c'⟩
    rw [(hfresh hk).2]
    exact h.fresh c (hfresh hk).1

/-- A transaction commits a revision. -/
theorem commit (h : Sound s) {c : C} {t : Readings} {request : Request} {answer : Answer}
    {store : Store} {r : Revision} (hphase : (s.conns c).phase = .committing request)
    (hnow₀ : 0 ≤ t.now) (hnow₁ : t.now ≤ 9223372036854775807)
    (he : Effect s.db t request answer store.db) (hr : answer.revision? = some r) :
    Sound (s.commit c store r) := by
  have hlocked : (s.conns c).phase.locked = true := by rw [hphase]; rfl
  have hnone : s.pending = none := h.pending_eq_none hlocked (by simp [hphase])
  have hto := h.committing c request hphase
  obtain ⟨hvault, hsize⟩ := bounds_of_commitsTo s.store.constraints h.history.sequenceNonneg hnow₀
    hnow₁ hto he hr
  refine ⟨?_, ?_, ?_, fun r' hr' => ?_, fun r' hr' => ?_, ?_, ?_, ?_⟩
  · exact (Function.forall_update_iff s.conns fun c' k => k.phase.locked = true ↔ _).mpr
      ⟨iff_of_true rfl ((h.held c).mp hlocked), fun c' _ => h.held c'⟩
  · exact (Function.forall_update_iff s.conns fun _ k => ∀ request,
      k.phase = .committing request → request.commitsTo k.vault = true).mpr
      ⟨(fun _ hk => nomatch hk), fun c' _ => h.committing c'⟩
  · refine (Function.forall_update_iff s.conns fun _ k => ∀ r',
      k.phase = .committed r' → some r = some r' ∧ r'.vaultId = k.vault).mpr
      ⟨fun r' hr' => ?_, fun c' _ r' hr' => ?_⟩
    · cases hr'
      exact ⟨rfl, hvault⟩
    · have hpending := (h.pending c' r' hr').1
      rw [hnone] at hpending
      cases hpending
  · cases hr'
    exact ⟨c, by simp [State.commit, Connection.goes]⟩
  · cases hr'
    exact hsize
  · refine (Function.forall_update_iff s.conns fun _ k => k.phase = .initRead →
      k.ready = store.db.currentVersion k.vault).mpr
      ⟨(fun hk => nomatch hk), fun c' hc hread => ?_⟩
    exact absurd (h.eq_of_locked hlocked (by rw [hread]; rfl)) hc
  · exact (Function.forall_update_iff s.conns fun _ k => k.phase.fresh = true →
      k.sent = []).mpr ⟨(fun hk => nomatch hk), fun c' _ => h.fresh c'⟩
  · have hchange := change_of_commitsTo s.store.constraints hto he
    rw [hr] at hchange
    have hlog : s.log = s.published := by simp [State.log, hnone]
    have hhistory := h.history.change s.store.constraints hchange
    rw [hlog] at hhistory
    exact hhistory

/-- The holder of the lock gives it back. -/
theorem held_release (h : Sound s) {c : C} {k : Connection}
    (hlocked : (s.conns c).phase.locked = true) (hk : k.phase.locked = false) (c' : C) :
    (Function.update s.conns c k c').phase.locked = true ↔ (none : Option C) = some c' := by
  refine (Function.forall_update_iff s.conns fun c' k => k.phase.locked = true ↔
    (none : Option C) = some c').mpr ⟨by simp [hk], fun c' hc => ?_⟩ c'
  simpa using fun hc' => hc (h.eq_of_locked hlocked hc')

/-- A transaction ends without one. -/
theorem retreat (h : Sound s) {c : C} {request : Request} {store : Store}
    (hphase : (s.conns c).phase = .committing request)
    (hchange : Change s.db false none store.db) :
    Sound (s.retreat c store) := by
  have hlocked : (s.conns c).phase.locked = true := by rw [hphase]; rfl
  have hnone : s.pending = none := h.pending_eq_none hlocked (by simp [hphase])
  refine ⟨h.held_release hlocked rfl, ?_, ?_, fun r hr => ?_, h.size, ?_, ?_, ?_⟩
  · exact (Function.forall_update_iff s.conns fun _ k => ∀ request,
      k.phase = .committing request → request.commitsTo k.vault = true).mpr
      ⟨(fun _ hk => nomatch hk), fun c' _ => h.committing c'⟩
  · exact (Function.forall_update_iff s.conns fun _ k => ∀ r,
      k.phase = .committed r → s.pending = some r ∧ r.vaultId = k.vault).mpr
      ⟨(fun _ hk => nomatch hk), fun c' _ => h.pending c'⟩
  · exact absurd (hnone.symm.trans hr) (by simp)
  · refine (Function.forall_update_iff s.conns fun _ k => k.phase = .initRead →
      k.ready = store.db.currentVersion k.vault).mpr
      ⟨(fun hk => nomatch hk), fun c' _ hread => ?_⟩
    exact (h.initRead c' hread).trans (hchange.currentVersion_eq _).symm
  · exact (Function.forall_update_iff s.conns fun _ k => k.phase.fresh = true →
      k.sent = []).mpr ⟨(fun hk => nomatch hk), fun c' _ => h.fresh c'⟩
  · exact (h.store hchange).history

/-- The event of a committed revision is published. -/
theorem publish (h : Sound s) {c : C} {r : Revision} (hphase : (s.conns c).phase = .committed r) :
    Sound (s.publish c r) := by
  have hlocked : (s.conns c).phase.locked = true := by rw [hphase]; rfl
  refine ⟨h.held_release hlocked rfl, ?_, ?_, (fun r hr => nomatch hr), (fun r hr => nomatch hr),
    ?_, ?_, ?_⟩
  · exact (Function.forall_update_iff s.conns fun _ k => ∀ request,
      k.phase = .committing request → request.commitsTo k.vault = true).mpr
      ⟨(fun _ hk => nomatch hk), fun c' _ => h.committing c'⟩
  · refine (Function.forall_update_iff s.conns fun _ k => ∀ r,
      k.phase = .committed r → none = some r ∧ r.vaultId = k.vault).mpr
      ⟨(fun _ hk => nomatch hk), fun c' hc r' hr' => ?_⟩
    exact absurd (h.eq_of_locked hlocked (by rw [hr']; rfl)) hc
  · exact (Function.forall_update_iff s.conns fun _ k => k.phase = .initRead →
      k.ready = s.db.currentVersion k.vault).mpr
      ⟨(fun hk => nomatch hk), fun c' _ => h.initRead c'⟩
  · exact (Function.forall_update_iff s.conns fun _ k => k.phase.fresh = true →
      k.sent = []).mpr ⟨(fun hk => nomatch hk), fun c' _ => h.fresh c'⟩
  · have hlog : s.log = s.published ++ [r] := by
      rw [State.log, (h.pending c r hphase).1]
      rfl
    have hhistory := h.history
    rw [hlog, ← List.append_nil (s.published ++ [r])] at hhistory
    exact hhistory

theorem step (h : Sound s) (hstep : Step s a s') : Sound s' := by
  cases hstep with
  | move hmove hne hlock => exact h.move hmove hne hlock
  | commit hphase hnow₀ hnow₁ he hr => exact h.commit hphase hnow₀ hnow₁ he hr
  | retreat hphase hchange => exact h.retreat hphase hchange
  | publish hphase _ => exact h.publish hphase
  | oversized hphase hsize =>
    exact absurd (h.size _ (h.pending _ _ hphase).1) (not_le.mpr hsize)
  | store _ hchange => exact h.store hchange

end Sound

/-- One step of the server, as a relation. -/
def Next [DecidableEq C] (s : State C) (a : Action C) (s' : State C) : Prop := s.next a = some s'

theorem Sound.next [DecidableEq C] (h : Sound s) (hnext : Next s a s') : Step s a s' ∧ Sound s' :=
  have hstep := step_of_next h.committing hnext
  ⟨hstep, h.step hstep⟩

end Blackglass.Stream
