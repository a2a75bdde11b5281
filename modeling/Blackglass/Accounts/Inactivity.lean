import Blackglass.Authority

/-!
# The inactivity window of a session

A session is renewed lazily, and by two functions of their own: once it has less than half of
its lifetime left, a use of it writes a full lifetime.  `Window` is what both leave behind, and
what nothing but a use can change: the session expires more than half a lifetime and at most a
whole lifetime after it was last used.

Requests and account operations interleave in any order.  The clock does not go back, and its
readings leave room for half a lifetime in an `i64`; otherwise there is no expiry to be written.
-/

namespace Blackglass

open Outcome Transition

/-! ## Uses of a session -/

namespace AccountOperation

/-- The token whose session an operation uses, with the lifetime that it renews it for. -/
def use? : AccountOperation → Option (String × Int)
  | authContextHashWithRenewal tokenHash ttlSecs | renewSessionForVault tokenHash _ ttlSecs =>
    some (tokenHash, ttlSecs)
  | _ => none

/-- Whether an operation uses the session of a token with success. -/
def succeeds (db : Database) (tokenHash : String) (now : Int) : AccountOperation → Bool
  | authContextHashWithRenewal hash ttlSecs =>
    hash = tokenHash && (db.authContextHashWithRenewal hash ttlSecs now).1.1.isSome
  | renewSessionForVault hash vault ttlSecs =>
    hash = tokenHash && (db.renewSessionForVault hash vault ttlSecs now).1.isSome
  | _ => false

end AccountOperation

/-- What a successful use does. -/
inductive Use (db : Database) (tokenHash : String) (ttlSecs now : Int) : Database → Prop where
  | keep {r : SessionRow} : r ∈ db.sessions → r.tokenHash = tokenHash →
      renewalThreshold ttlSecs now < r.expiresAt → Use db tokenHash ttlSecs now db
  | renew {r : SessionRow} {authorized : SessionRow → Bool} : r ∈ db.sessions →
      Database.renewable tokenHash ttlSecs now authorized r = true →
      Use db tokenHash ttlSecs now (db.renewSession tokenHash ttlSecs now authorized)

section

variable {db db' : Database} {tokenHash vault : String} {ttlSecs now usedAt : Int}

theorem authContextHashWithRenewal_use (hc : Constraints db)
    (hlater : now < renewedExpiry ttlSecs now) :
    ((db.authContextHashWithRenewal tokenHash ttlSecs now).1.1.isSome = true ∧
        Use db tokenHash ttlSecs now (db.authContextHashWithRenewal tokenHash ttlSecs now).2) ∨
      ((db.authContextHashWithRenewal tokenHash ttlSecs now).1.1 = none ∧
        (db.authContextHashWithRenewal tokenHash ttlSecs now).2 = db ∧
        (isTokenHash tokenHash = true → db.authenticated tokenHash now = none)) := by
  unfold Database.authContextHashWithRenewal
  split
  · cases hrow : db.authenticated tokenHash now with
    | none => exact .inr ⟨rfl, rfl, fun _ => rfl⟩
    | some row =>
      obtain ⟨s, u⟩ := row
      obtain ⟨hs, htoken, hlive, hu, hid, hactive⟩ := (authenticated_eq_some_iff hc).mp hrow
      by_cases hthreshold : s.expiresAt > renewalThreshold ttlSecs now
      · simp only [hthreshold, if_true]
        exact .inl ⟨rfl, .keep hs htoken hthreshold⟩
      · simp only [hthreshold, if_false]
        simp only [SessionRow.live, Bool.and_eq_true, decide_eq_true_eq] at hlive
        have huser : db.activeUser s.userId = true := activeUser_iff.mpr ⟨u, hu, hid, hactive⟩
        have hrenew : Database.renewable tokenHash ttlSecs now
            (fun s => db.activeUser s.userId) s = true := by
          simp [Database.renewable, htoken, hlive.1, hlive.2, not_lt.mp hthreshold, huser]
        refine .inl ⟨?_, .renew hs hrenew⟩
        have hrenewed : ((db.renewSession tokenHash ttlSecs now fun s =>
            db.activeUser s.userId).authenticated tokenHash now) =
            some ({ s with expiresAt := renewedExpiry ttlSecs now }, u) := by
          refine (authenticated_eq_some_iff (hc.renewSession _ _ _ _)).mpr
            ⟨List.mem_map.mpr ⟨s, hs, if_pos hrenew⟩, htoken, ?_, hu, hid, hactive⟩
          simp [SessionRow.live, hlater, hlive.2]
        rw [hrenewed]
        rfl
  · rename_i hshape
    exact .inr ⟨rfl, rfl, fun h => absurd h hshape⟩

theorem renewSessionForVault_use (hlater : now < renewedExpiry ttlSecs now) :
    ((db.renewSessionForVault tokenHash vault ttlSecs now).1.isSome = true ∧
        Use db tokenHash ttlSecs now (db.renewSessionForVault tokenHash vault ttlSecs now).2) ∨
      ((db.renewSessionForVault tokenHash vault ttlSecs now).1 = none ∧
        (db.renewSessionForVault tokenHash vault ttlSecs now).2 = db ∧
        (tokenHash.utf8ByteSize = 64 → vault.isEmpty = false →
          ¬HasAccess db tokenHash vault now)) := by
  unfold Database.renewSessionForVault
  split
  · rename_i hshape
    refine .inr ⟨rfl, rfl, fun hsize hvault => ?_⟩
    simp [hsize, hvault] at hshape
  · cases hexpiry : db.authorizedExpiry tokenHash vault now with
    | none =>
      refine .inr ⟨rfl, rfl, fun _ _ haccess => ?_⟩
      rw [← authorizedExpiry_isSome_iff, hexpiry] at haccess
      cases haccess
    | some expiry =>
      have haccess : HasAccess db tokenHash vault now := by
        rw [← authorizedExpiry_isSome_iff, hexpiry]
        rfl
      obtain ⟨s, hfind, rfl⟩ := Option.map_eq_some_iff.mp hexpiry
      have hs := List.mem_of_find?_eq_some hfind
      have hrow := List.find?_some hfind
      simp only [SessionRow.live, Bool.and_eq_true, decide_eq_true_eq] at hrow
      obtain ⟨⟨htoken, hlive, hunrevoked⟩, hauthorized⟩ := hrow
      by_cases hthreshold : s.expiresAt > renewalThreshold ttlSecs now
      · simp only [hthreshold, if_true]
        exact .inl ⟨rfl, .keep hs htoken hthreshold⟩
      · simp only [hthreshold, if_false]
        refine .inl ⟨?_, .renew hs ?_⟩
        · rw [Option.isSome_map, authorizedExpiry_isSome_iff]
          exact haccess.renewSession _ hlater
        · simp [Database.renewable, htoken, hlive, hunrevoked, not_lt.mp hthreshold, hauthorized]

/-! ## The window -/

/-- The session of the token expires more than half a lifetime after `usedAt`, and not more than
a lifetime. -/
def Window (tokenHash : String) (ttlSecs usedAt : Int) (sessions : List SessionRow) : Prop :=
  ∀ r ∈ sessions, r.tokenHash = tokenHash →
    usedAt + ttlSecs * 1000 / 2 < r.expiresAt ∧ r.expiresAt ≤ usedAt + ttlSecs * 1000

/-- A lifetime, and a reading of the clock, that `i64` has room for. -/
structure Roomy (ttlSecs now : Int) : Prop where
  ttl : 1 ≤ ttlSecs
  lifetime : ttlSecs * 1000 ≤ 9223372036854775807
  nonneg : 0 ≤ now
  half : now + ttlSecs * 1000 / 2 < 9223372036854775807

theorem Roomy.renewalThreshold_eq (h : Roomy ttlSecs now) :
    renewalThreshold ttlSecs now = now + ttlSecs * 1000 / 2 := by
  obtain ⟨httl, hlifetime, hnonneg, hhalf⟩ := h
  have hms : saturate (ttlSecs * 1000) = ttlSecs * 1000 := by
    unfold saturate
    omega
  unfold renewalThreshold
  rw [hms, Int.tdiv_eq_ediv_of_nonneg (by omega)]
  unfold saturate
  omega

theorem Roomy.renewedExpiry_bounds (h : Roomy ttlSecs now) :
    now + ttlSecs * 1000 / 2 < renewedExpiry ttlSecs now ∧
      renewedExpiry ttlSecs now ≤ now + ttlSecs * 1000 := by
  obtain ⟨httl, hlifetime, hnonneg, hhalf⟩ := h
  unfold renewedExpiry saturate
  omega

theorem Roomy.lt_renewedExpiry (h : Roomy ttlSecs now) : now < renewedExpiry ttlSecs now := by
  have := h.renewedExpiry_bounds.1
  have := h.ttl
  omega

theorem Use.window (h : Use db tokenHash ttlSecs now db') (hc : Constraints db)
    (hroom : Roomy ttlSecs now) (hle : usedAt ≤ now)
    (hwindow : Window tokenHash ttlSecs usedAt db.sessions) :
    Window tokenHash ttlSecs now db'.sessions := by
  have hunique : ∀ {r s : SessionRow}, r ∈ db.sessions → s ∈ db.sessions →
      r.tokenHash = tokenHash → s.tokenHash = tokenHash → r = s :=
    fun hr hs htoken htoken' =>
      List.inj_on_of_nodup_map hc.sessionToken hr hs (htoken.trans htoken'.symm)
  cases h with
  | @keep r hr htoken hthreshold =>
    intro s hs hstoken
    obtain rfl := hunique hr hs htoken hstoken
    rw [hroom.renewalThreshold_eq] at hthreshold
    have := (hwindow r hr htoken).2
    exact ⟨hthreshold, by omega⟩
  | @renew r authorized hr hrenew =>
    intro s hs hstoken
    obtain ⟨q, hq, rfl⟩ := List.mem_map.mp hs
    have hqtoken : q.tokenHash = tokenHash := by
      rw [← hstoken]
      split <;> rfl
    have hrtoken : r.tokenHash = tokenHash := by
      simp only [Database.renewable, Bool.and_eq_true, decide_eq_true_eq] at hrenew
      exact hrenew.1.1.1.1
    obtain rfl := hunique hr hq hrtoken hqtoken
    rw [if_pos hrenew]
    exact hroom.renewedExpiry_bounds

/-- A session that was used is there. -/
theorem Use.exists_token (h : Use db tokenHash ttlSecs now db') :
    ∃ r ∈ db'.sessions, r.tokenHash = tokenHash := by
  cases h with
  | keep hr htoken _ => exact ⟨_, hr, htoken⟩
  | renew hr hrenew =>
    refine ⟨_, List.mem_map_of_mem hr, ?_⟩
    simp only [Database.renewable, Bool.and_eq_true, decide_eq_true_eq] at hrenew
    split <;> exact hrenew.1.1.1.1

/-- The two functions, as operations: a use succeeds, or it changes nothing. -/
theorem AccountOperation.use_or_same {phc : PhcParser} {op : AccountOperation} (hc : Constraints db)
    (hroom : Roomy ttlSecs now) (huse : op.use? = some (tokenHash, ttlSecs))
    (hok : op.execute phc db now = .ok db') :
    (op.succeeds db tokenHash now = true ∧ Use db tokenHash ttlSecs now db') ∨
      (op.succeeds db tokenHash now = false ∧ db' = db) := by
  cases op with
  | authContextHashWithRenewal hash ttl =>
    cases huse
    cases hok
    rcases authContextHashWithRenewal_use hc hroom.lt_renewedExpiry with
      ⟨hsome, h⟩ | ⟨hnone, h, -⟩
    · exact .inl ⟨by simp [succeeds, hsome], h⟩
    · exact .inr ⟨by simp [succeeds, hnone], h⟩
  | renewSessionForVault hash vault ttl =>
    cases huse
    cases hok
    rcases renewSessionForVault_use hroom.lt_renewedExpiry with
      ⟨hsome, h⟩ | ⟨hnone, h, -⟩
    · exact .inl ⟨by simp [succeeds, hsome], h⟩
    · exact .inr ⟨by simp [succeeds, hnone], h⟩
  | _ => cases huse

/-! ## What is not a use -/

theorem AccountOperation.succeeds_eq_false {op : AccountOperation}
    (hother : ∀ ttlSecs, op.use? ≠ some (tokenHash, ttlSecs)) :
    op.succeeds db tokenHash now = false := by
  cases op with
  | authContextHashWithRenewal hash ttl =>
    have hne : hash ≠ tokenHash := fun heq => hother ttl (heq ▸ rfl)
    simp [succeeds, hne]
  | renewSessionForVault hash vault ttl =>
    have hne : hash ≠ tokenHash := fun heq => hother ttl (heq ▸ rfl)
    simp [succeeds, hne]
  | _ => rfl

/-- Any other operation leaves the expiry of the session alone. -/
theorem expiresAt_of_sessionChange {op : AccountOperation} {sessions : List SessionRow}
    (h : SessionChange db now op sessions) (hfresh : tokenHash ∉ op.issues?)
    (hother : ∀ ttlSecs, op.use? ≠ some (tokenHash, ttlSecs)) {r : SessionRow} (hr : r ∈ sessions)
    (htoken : r.tokenHash = tokenHash) :
    ∃ q ∈ db.sessions, q.tokenHash = tokenHash ∧ q.expiresAt = r.expiresAt := by
  have hrenewed : ∀ {hash ttlSecs authorized}, hash ≠ tokenHash →
      r ∈ (db.renewSession hash ttlSecs now authorized).sessions → r ∈ db.sessions := by
    intro hash ttlSecs authorized hne hr
    obtain ⟨q, hq, rfl⟩ := List.mem_map.mp hr
    split at htoken
    · rename_i hrenew
      simp only [Database.renewable, Bool.and_eq_true, decide_eq_true_eq] at hrenew
      exact absurd (hrenew.1.1.1.1.symm.trans htoken) hne
    · rename_i hrenew
      rwa [if_neg hrenew]
  cases h with
  | keep => exact ⟨r, hr, htoken, rfl⟩
  | issue _ _ _ =>
    rcases List.mem_append.mp hr with hr | hr
    · exact ⟨r, List.mem_of_mem_filter hr, htoken, rfl⟩
    · rw [List.mem_singleton.mp hr] at htoken
      exact absurd (htoken ▸ rfl) hfresh
  | @renewContext hash ttlSecs p =>
    have hne : hash ≠ tokenHash := fun heq => hother ttlSecs (heq ▸ rfl)
    exact ⟨r, hrenewed hne hr, htoken, rfl⟩
  | @renewForVault hash vault ttlSecs p =>
    have hne : hash ≠ tokenHash := fun heq => hother ttlSecs (heq ▸ rfl)
    exact ⟨r, hrenewed hne hr, htoken, rfl⟩
  | revoke p _ =>
    obtain ⟨q, hq, rfl⟩ := List.mem_map.mp hr
    refine ⟨q, hq, ?_, ?_⟩
    · rw [← htoken]
      split <;> rfl
    · split <;> rfl

/-- No operation deletes a session that is live at its reading. -/
theorem token_kept_of_sessionChange {op : AccountOperation} {sessions : List SessionRow}
    (h : SessionChange db now op sessions) {r : SessionRow} (hr : r ∈ db.sessions)
    (hlive : r.live now = true) : ∃ q ∈ sessions, q.tokenHash = r.tokenHash := by
  cases h with
  | keep => exact ⟨r, hr, rfl⟩
  | issue _ _ _ => exact ⟨r, List.mem_append_left _ (List.mem_filter.mpr ⟨hr, hlive⟩), rfl⟩
  | renewContext p | renewForVault p => exact ⟨_, List.mem_map_of_mem hr, by split <;> rfl⟩
  | revoke p _ => exact ⟨_, List.mem_map_of_mem hr, by split <;> rfl⟩

/-! ## Runs -/

/-- The server, with the last reading of its clock and that of the last successful use. -/
structure Watch where
  state : AuthorityState
  clock : Int
  usedAt : Int

/-- The session table. -/
def Watch.sessions (w : Watch) : List SessionRow := w.state.store.db.sessions

/-- Requests, and account operations with a clock that does not go back. -/
inductive Watch.Step (phc : PhcParser) (tokenHash : String) (w : Watch) :
    Activity → Watch → Prop where
  | request {r : Request} {t : Readings} {s' : AuthorityState} :
      w.state.Step phc (.request r t) s' →
      Watch.Step phc tokenHash w (.request r t) { w with state := s' }
  | account {op : AccountOperation} {now : Int} {s' : AuthorityState} : w.clock ≤ now →
      w.state.Step phc (.account op now) s' →
      Watch.Step phc tokenHash w (.account op now)
        ⟨s', now, if op.succeeds w.state.store.db tokenHash now then now else w.usedAt⟩

/-- The readings leave room, and the session is used with one lifetime. -/
def Fixed (tokenHash : String) (ttlSecs : Int) : Activity → Prop
  | .request _ _ => True
  | .account op now => Roomy ttlSecs now ∧ ∀ ttl, op.use? = some (tokenHash, ttl) → ttl = ttlSecs

/-- A step that does not revoke the session. -/
def Watch.Spares (phc : PhcParser) (tokenHash : String) (w : Watch) (a : Activity) (w' : Watch) :
    Prop :=
  Watch.Step phc tokenHash w a w' ∧
    ∀ r ∈ w'.sessions, r.tokenHash = tokenHash → r.revokedAt = none

/-- What holds of the session all the time. -/
structure Watch.Sound (tokenHash : String) (ttlSecs : Int) (w : Watch) : Prop where
  issued : tokenHash ∈ w.state.issued
  usedAt_le : w.usedAt ≤ w.clock
  unrevoked : ∀ r ∈ w.sessions, r.tokenHash = tokenHash → r.revokedAt = none
  window : Window tokenHash ttlSecs w.usedAt w.sessions
  /-- A session is not deleted before it has expired. -/
  kept : w.clock ≤ w.usedAt + ttlSecs * 1000 / 2 → ∃ r ∈ w.sessions, r.tokenHash = tokenHash

namespace Watch.Sound

variable {phc : PhcParser} {w w' : Watch}

/-- Up to half a lifetime after it was used the session is live. -/
theorem live (h : w.Sound tokenHash ttlSecs) {r : SessionRow} (hr : r ∈ w.sessions)
    (htoken : r.tokenHash = tokenHash) (hnow : now ≤ w.usedAt + ttlSecs * 1000 / 2) :
    r.live now = true := by
  have hexpires := (h.window r hr htoken).1
  simp only [SessionRow.live, h.unrevoked r hr htoken, Option.isNone_none, Bool.and_true,
    decide_eq_true_eq]
  omega

/-- An operation that was no successful use. -/
theorem unused (h : w.Sound tokenHash ttlSecs) {op : AccountOperation} {s' : AuthorityState}
    (hle : w.clock ≤ now) (hissued : tokenHash ∈ s'.issued)
    (hunrevoked : ∀ r ∈ s'.store.db.sessions, r.tokenHash = tokenHash → r.revokedAt = none)
    (hchange : SessionChange w.state.store.db now op s'.store.db.sessions)
    (hsame : ∀ r ∈ s'.store.db.sessions, r.tokenHash = tokenHash →
      ∃ q ∈ w.sessions, q.tokenHash = tokenHash ∧ q.expiresAt = r.expiresAt) :
    Watch.Sound tokenHash ttlSecs ⟨s', now, w.usedAt⟩ where
  issued := hissued
  usedAt_le := h.usedAt_le.trans hle
  unrevoked := hunrevoked
  window r hr htoken := by
    obtain ⟨q, hq, hqtoken, hexpires⟩ := hsame r hr htoken
    rw [← hexpires]
    exact h.window q hq hqtoken
  kept hnow := by
    obtain ⟨r, hr, htoken⟩ := h.kept (hle.trans hnow)
    obtain ⟨q, hq, hqtoken⟩ := token_kept_of_sessionChange hchange hr (h.live hr htoken hnow)
    exact ⟨q, hq, hqtoken.trans htoken⟩

theorem step {a : Activity} (h : w.Sound tokenHash ttlSecs) (hfixed : Fixed tokenHash ttlSecs a)
    (hstep : w.Spares phc tokenHash a w') : w'.Sound tokenHash ttlSecs := by
  obtain ⟨hstep, hunrevoked⟩ := hstep
  have hc := w.state.store.constraints
  cases hstep with
  | request hstep =>
    cases hstep with
    | request hstep =>
      cases hstep with
      | rollback _ => exact h
      | commit hok =>
        have hsessions := ((execute_ok hok).accounts hc).sessions
        exact ⟨h.issued, h.usedAt_le, hunrevoked, by
          unfold Watch.sessions
          rw [hsessions]
          exact h.window, by
          unfold Watch.sessions
          rw [hsessions]
          exact h.kept⟩
  | @account op now s' hle hstep =>
    obtain ⟨hroom, httl⟩ := hfixed
    cases hstep with
    | @account _ _ store' hfresh haccount =>
      have hissued : tokenHash ∈ op.issues?.toList ++ w.state.issued :=
        List.mem_append_right _ h.issued
      have hchange := haccount.effect.sessionChange
      by_cases huse : ∃ ttl, op.use? = some (tokenHash, ttl)
      · obtain ⟨ttl, huse⟩ := huse
        obtain rfl := httl ttl huse
        cases haccount with
        | rollback herror =>
          cases op <;> cases huse <;> cases herror
        | commit hok =>
          rcases op.use_or_same hc hroom huse hok with ⟨hsucceeds, hused⟩ | ⟨hfails, hsame⟩
          · rw [if_pos hsucceeds]
            exact ⟨hissued, le_rfl, hunrevoked,
              hused.window hc hroom (h.usedAt_le.trans hle) h.window,
              fun _ => hused.exists_token⟩
          · rw [if_neg (by simp [hfails])]
            refine h.unused hle hissued hunrevoked hchange fun r hr htoken => ?_
            rw [hsame] at hr
            exact ⟨r, hr, htoken, rfl⟩
      · have hother : ∀ ttl, op.use? ≠ some (tokenHash, ttl) :=
          fun ttl heq => huse ⟨ttl, heq⟩
        rw [AccountOperation.succeeds_eq_false hother, if_neg (by simp)]
        refine h.unused hle hissued hunrevoked hchange fun r hr htoken => ?_
        exact expiresAt_of_sessionChange hchange (fun hnew => hfresh _ hnew h.issued) hother
          hr htoken

/-- The session when it was issued. -/
theorem start {s : AuthorityState} {db : Database} {userId : Int} (httl : 1 ≤ ttlSecs)
    (hissued : tokenHash ∈ s.issued)
    (hok : db.issueSessionForUser tokenHash userId ttlSecs now = .ok s.store.db) :
    Watch.Sound tokenHash ttlSecs ⟨s, now, now⟩ := by
  simp only [Database.issueSessionForUser, bind_eq_ok, rejectIf_eq_ok, exists_unit, pure_eq_ok]
    at hok
  obtain ⟨-, -, -, hnew, hdb⟩ := hok
  have hrow : ∀ r ∈ s.store.db.sessions, r.tokenHash = tokenHash →
      r = issuedSession tokenHash userId ttlSecs now := by
    intro r hr htoken
    rw [← hdb] at hr
    rcases List.mem_append.mp hr with hr | hr
    · simp only [List.any_eq_true, decide_eq_true_eq, not_exists, not_and] at hnew
      exact absurd htoken (hnew r hr)
    · exact List.mem_singleton.mp hr
  refine ⟨hissued, le_rfl, fun r hr htoken => ?_, fun r hr htoken => ?_, fun _ => ?_⟩
  · rw [hrow r hr htoken]
    rfl
  · rw [hrow r hr htoken]
    simp only [issuedSession]
    omega
  · refine ⟨issuedSession tokenHash userId ttlSecs now, ?_, rfl⟩
    show _ ∈ s.store.db.sessions
    rw [← hdb]
    exact List.mem_append_right _ List.mem_cons_self

end Watch.Sound

/-! ## What the window means -/

/-- Nothing that asks for the session of the token finds it. -/
structure Expired (db : Database) (tokenHash : String) (now : Int) : Prop where
  authContextHash : db.authContextHash tokenHash now = none
  authContextHashWithRenewal : ∀ ttlSecs,
    db.authContextHashWithRenewal tokenHash ttlSecs now = ((none, false), db)
  validSessionForVault : ∀ vault, db.validSessionForVault tokenHash vault now = false
  renewSessionForVault : ∀ vault ttlSecs,
    db.renewSessionForVault tokenHash vault ttlSecs now = (none, db)

theorem expired_of_not_live (hc : Constraints db)
    (h : ∀ r ∈ db.sessions, r.tokenHash = tokenHash → r.live now = false) :
    Expired db tokenHash now := by
  have hcontext : db.authenticated tokenHash now = none := by
    cases hrow : db.authenticated tokenHash now with
    | none => rfl
    | some row =>
      obtain ⟨hs, htoken, hlive, -⟩ := (authenticated_eq_some_iff hc).mp hrow
      rw [h _ hs htoken] at hlive
      cases hlive
  have haccess : ∀ vault, ¬HasAccess db tokenHash vault now := by
    rintro vault ⟨r, hr, htoken, hlive, -⟩
    rw [h r hr htoken] at hlive
    cases hlive
  refine ⟨?_, fun ttlSecs => ?_, fun vault => ?_, fun vault ttlSecs => ?_⟩
  · simp [Database.authContextHash, hcontext]
  · simp [Database.authContextHashWithRenewal, hcontext]
  · rw [Bool.eq_false_iff, ne_eq, validSessionForVault_eq_true]
    exact fun hvalid => haccess vault hvalid.2.2
  · have hexpiry : db.authorizedExpiry tokenHash vault now = none := by
      rw [← Option.not_isSome_iff_eq_none, authorizedExpiry_isSome_iff]
      exact haccess vault
    unfold Database.renewSessionForVault
    rw [hexpiry]
    split <;> rfl

/-- A live session of an active user can be used. -/
theorem use_of_live (hc : Constraints db) (hroom : Roomy ttlSecs now) {r : SessionRow}
    (hr : r ∈ db.sessions) (hlive : r.live now = true) (hactive : db.activeUser r.userId = true) :
    (isTokenHash r.tokenHash = true →
        (db.authContextHashWithRenewal r.tokenHash ttlSecs now).1.1.isSome = true) ∧
      ∀ vault, r.tokenHash.utf8ByteSize = 64 → vault.isEmpty = false → Related db r.userId vault →
        (db.renewSessionForVault r.tokenHash vault ttlSecs now).1.isSome = true := by
  constructor
  · intro hshape
    rcases authContextHashWithRenewal_use hc hroom.lt_renewedExpiry with ⟨hsome, -⟩ | ⟨-, -, hnone⟩
    · exact hsome
    · obtain ⟨u, hu, hid, hstatus⟩ := activeUser_iff.mp hactive
      have hrow := (authenticated_eq_some_iff hc).mpr ⟨hr, rfl, hlive, hu, hid, hstatus⟩
      rw [hnone hshape] at hrow
      cases hrow
  · intro vault hsize hvault hrelated
    rcases renewSessionForVault_use hroom.lt_renewedExpiry with ⟨hsome, -⟩ | ⟨-, -, hnone⟩
    · exact hsome
    · exact absurd ⟨r, hr, rfl, hlive, hactive, hrelated⟩ (hnone hsize hvault)

/-- Whatever else happens between the uses of a session, as long as it is not revoked: it expires
more than half a lifetime and at most a lifetime after its last use.  Up to half a lifetime after
that use it is live, so that the next use succeeds, and a lifetime after it, it is of no use. -/
theorem sliding_inactivity_window {phc : PhcParser} {s₀ : AuthorityState} {userId t₀ : Int}
    {as : List Activity} {w : Watch} (httl : 1 ≤ ttlSecs) (hissued : tokenHash ∈ s₀.issued)
    (hissue : db.issueSessionForUser tokenHash userId ttlSecs t₀ = .ok s₀.store.db)
    (hrun : Run (Guarded (fun _ a => Fixed tokenHash ttlSecs a) (Watch.Spares phc tokenHash))
      ⟨s₀, t₀, t₀⟩ as w) :
    Window tokenHash ttlSecs w.usedAt w.sessions ∧
      (∀ now, w.clock ≤ now → now ≤ w.usedAt + ttlSecs * 1000 / 2 → Roomy ttlSecs now →
        ∃ r ∈ w.sessions, r.tokenHash = tokenHash ∧ r.live now = true ∧
          (w.state.store.db.activeUser r.userId = true →
            (isTokenHash tokenHash = true → (w.state.store.db.authContextHashWithRenewal tokenHash
              ttlSecs now).1.1.isSome = true) ∧
            ∀ vault, tokenHash.utf8ByteSize = 64 → vault.isEmpty = false →
              Related w.state.store.db r.userId vault →
              (w.state.store.db.renewSessionForVault tokenHash vault ttlSecs now).1.isSome =
                true)) ∧
      ∀ now, w.usedAt + ttlSecs * 1000 ≤ now → Expired w.state.store.db tokenHash now := by
  have hc := w.state.store.constraints
  have h : w.Sound tokenHash ttlSecs :=
    Run.invariant_of_guard (fun hs hfixed hstep => hs.step hfixed hstep)
      (Watch.Sound.start httl hissued hissue) hrun
  refine ⟨h.window, fun now hclock hhalf hroom => ?_, fun now hlate => ?_⟩
  · obtain ⟨r, hr, rfl⟩ := h.kept (hclock.trans hhalf)
    have hlive := h.live hr rfl hhalf
    exact ⟨r, hr, rfl, hlive, fun hactive => use_of_live hc hroom hr hlive hactive⟩
  · refine expired_of_not_live hc fun r hr htoken => ?_
    have hexpires := (h.window r hr htoken).2
    simp only [SessionRow.live, Bool.and_eq_false_iff, decide_eq_false_iff_not]
    exact .inl (by omega)

end

/-- A session of an hour that is used after half an hour is valid for an hour more. -/
theorem sliding_inactivity_window_of_use :
    let token := Text.hexEncode (List.replicate 32 1)
    let issued := personalStore.account onePhc (.issueSessionForUser token 1 3600) 0
    let used := issued.account onePhc (.authContextHashWithRenewal token 3600) 1800000
    (∃ r ∈ used.db.sessions, r.tokenHash = token ∧ r.live 3600000 = true) ∧
      Expired used.db token 5400000 := by
  intro token issued used
  let s₀ : AuthorityState := ⟨issued, [token]⟩
  let use : AccountOperation := .authContextHashWithRenewal token 3600
  have hissue : personalStore.db.issueSessionForUser token 1 3600 0 = .ok issued.db := by
    decide +kernel
  have hsucceeds : use.succeeds issued.db token 1800000 = true := by decide +kernel
  have hunrevoked : ∀ r ∈ used.db.sessions, r.tokenHash = token → r.revokedAt = none := by
    decide +kernel
  have hstep : Watch.Step onePhc token ⟨s₀, 0, 0⟩ (.account use 1800000)
      ⟨⟨used, [token]⟩, 1800000,
        if use.succeeds issued.db token 1800000 then 1800000 else 0⟩ :=
    .account (by decide) (.account (by simp [use, AccountOperation.issues?])
      (issued.account_step onePhc use 1800000))
  have hroom : Roomy 3600 1800000 := ⟨by decide, by decide, by decide, by decide⟩
  have hfixed : Fixed token 3600 (.account use 1800000) := by
    refine ⟨hroom, fun ttl huse => ?_⟩
    cases huse
    rfl
  rw [if_pos hsucceeds] at hstep
  obtain ⟨-, hlive, hexpired⟩ := sliding_inactivity_window (by decide) List.mem_cons_self
    hissue (.cons ⟨hfixed, hstep, hunrevoked⟩ (.nil _))
  obtain ⟨r, hr, htoken, hvalid, -⟩ := hlive 3600000 (by decide) (by decide)
    ⟨by decide, by decide, by decide, by decide⟩
  exact ⟨⟨r, hr, htoken, hvalid⟩, hexpired 5400000 (by decide)⟩

end Blackglass
