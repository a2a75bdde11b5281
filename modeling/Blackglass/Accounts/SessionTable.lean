import Blackglass.Accounts.Tokens

/-!
# The session table under any clock

`verify_logical_invariants` counts the live sessions of a user at its own reading of the
clock, while `issue_session_for_user` counted them at another, perhaps later one.  The
table is still accepted at every instant, because an issue first deletes everything that
is not live: what it counts is every row the user has left.  So the bound that holds at all
times is on the unrevoked rows (`SessionTable`), expired or not.
-/

namespace Blackglass

open Outcome Rows Text Transition

/-! ## The invariant -/

/-- The unrevoked rows of a user. -/
def Database.unrevokedSessionsOf (db : Database) (userId : Int) : List SessionRow :=
  db.sessions.filter fun s => s.userId = userId && s.revokedAt.isNone

structure SessionTable (db : Database) : Prop where
  row : ∀ s ∈ db.sessions, s.Valid true
  count : (db.sessions.length : Int) ≤ maxSessions
  perUser : ∀ userId, ((db.unrevokedSessionsOf userId).length : Int) ≤ maxSessionsPerUser

/-- The part of `verify_logical_invariants` that reads the session table, at `now`. -/
structure SessionsAccepted (db : Database) (now : Int) : Prop where
  session : ∀ s ∈ db.sessions, s.Valid true
  sessionCount : (db.sessions.length : Int) ≤ maxSessions
  sessionsPerUser : ∀ s ∈ db.sessions, s.live now = true →
    ((db.liveSessionsOf s.userId now).length : Int) ≤ maxSessionsPerUser

/-- The ids that users have, and that the next one will get. -/
structure UserIds (db : Database) : Prop where
  safe : ∀ u ∈ db.users, safeFrom 1 u.id
  highWater : maxOr0 (db.users.map (·.id)) ≤ (db.sequence "users").getD 0
  nonneg : 0 ≤ (db.sequence "users").getD 0

/-- A table within the bounds is accepted at every instant. -/
theorem SessionTable.accepted {db : Database} (h : SessionTable db) (now : Int) :
    SessionsAccepted db now := by
  refine ⟨h.row, h.count, fun s _ _ => le_trans ?_ (h.perUser s.userId)⟩
  simp only [Database.liveSessionsOf, Database.unrevokedSessionsOf,
    ← List.countP_eq_length_filter]
  refine Int.ofNat_le.mpr (List.countP_mono_left fun r _ hr => ?_)
  simp only [SessionRow.live, Bool.and_eq_true] at hr ⊢
  exact ⟨hr.1, hr.2.2⟩

/-! ## Readings and lifetimes -/

/-- `token_hash`: the hexadecimal digits of a SHA-256 digest, which has 32 bytes. -/
def IsTokenDigest (tokenHash : String) : Prop :=
  ∃ digest : List UInt8, digest.length = 32 ∧ tokenHash = hexEncode digest

/-- The lifetime an operation gives a session. -/
def AccountOperation.ttlSecs? : AccountOperation → Option Int
  | issueSessionForUser _ _ ttlSecs | authContextHashWithRenewal _ ttlSecs
  | renewSessionForVault _ _ ttlSecs => some ttlSecs
  | _ => none

/-- An operation of a server whose sessions live `ttlSecs`, at a reading that leaves room
for one. -/
structure InRange (ttlSecs : Int) (op : AccountOperation) (now : Int) : Prop where
  nonneg : 0 ≤ now
  room : now + ttlSecs * 1000 ≤ maxJsSafeInteger
  ttl : ∀ ttl ∈ op.ttlSecs?, ttl = ttlSecs
  token : ∀ tokenHash ∈ op.issues?, IsTokenDigest tokenHash

section Renewal

variable {ttlSecs now : Int}

theorem saturate_eq {x : Int} (h₀ : 0 ≤ x) (h₁ : x ≤ maxJsSafeInteger) : saturate x = x := by
  unfold maxJsSafeInteger at h₁
  unfold saturate
  omega

theorem renewedExpiry_eq (httl : 0 < ttlSecs) (hnow : 0 ≤ now)
    (hroom : now + ttlSecs * 1000 ≤ maxJsSafeInteger) :
    renewedExpiry ttlSecs now = now + ttlSecs * 1000 := by
  have hms : saturate (ttlSecs * 1000) = ttlSecs * 1000 := saturate_eq (by omega) (by omega)
  unfold renewedExpiry
  rw [hms, saturate_eq (by omega) hroom]

/-- Half a lifetime is less than a whole one, so a renewal moves the expiry forward. -/
theorem renewalThreshold_lt (httl : 0 < ttlSecs) (hnow : 0 ≤ now)
    (hroom : now + ttlSecs * 1000 ≤ maxJsSafeInteger) :
    renewalThreshold ttlSecs now < renewedExpiry ttlSecs now := by
  have hhalf : (ttlSecs * 1000).tdiv 2 = ttlSecs * 500 := by
    rw [Int.tdiv_eq_ediv_of_nonneg (by omega)]
    omega
  have hms : saturate (ttlSecs * 1000) = ttlSecs * 1000 := saturate_eq (by omega) (by omega)
  rw [renewedExpiry_eq httl hnow hroom]
  unfold renewalThreshold
  rw [hms, hhalf, saturate_eq (by omega) (by omega)]
  omega

/-- The rows after a renewal are those before it, with expiries that have not sunk. -/
theorem renewSession_expiresAt (httl : 0 < ttlSecs) (hnow : 0 ≤ now)
    (hroom : now + ttlSecs * 1000 ≤ maxJsSafeInteger) (tokenHash : String)
    (authorized : SessionRow → Bool) (s : SessionRow) :
    s.expiresAt ≤ (if Database.renewable tokenHash ttlSecs now authorized s then
      { s with expiresAt := renewedExpiry ttlSecs now } else s).expiresAt := by
  split
  · rename_i hrenew
    simp only [Database.renewable, Bool.and_eq_true, decide_eq_true_eq] at hrenew
    have := renewalThreshold_lt httl hnow hroom
    have hle := hrenew.1.1.2
    show s.expiresAt ≤ renewedExpiry ttlSecs now
    omega
  · exact le_refl _

end Renewal

/-! ## One operation -/

namespace UserIds

variable {db : Database}

theorem of_users (h : UserIds db) {db' : Database}
    (hids : db'.users.map (·.id) = db.users.map (·.id))
    (hseq : db'.sqliteSequence = db.sqliteSequence) : UserIds db' := by
  have hsequence : db'.sequence "users" = db.sequence "users" := by
    simp only [Database.sequence, hseq]
  refine ⟨fun u hu => ?_, by rw [hids, hsequence]; exact h.highWater, hsequence ▸ h.nonneg⟩
  have hmem : u.id ∈ db.users.map (·.id) := hids ▸ List.mem_map_of_mem hu
  obtain ⟨w, hw, hid⟩ := List.mem_map.mp hmem
  exact hid ▸ h.safe w hw

theorem withUser (h : UserIds db) {row : UserRow}
    (hroom : (db.sequence "users").getD 0 < maxJsSafeInteger) : UserIds (db.withUser row) := by
  have hnext : db.nextUserId = (db.sequence "users").getD 0 + 1 := nextRowid_eq h.highWater
  have hsequence : (db.withUser row).sequence "users" = some db.nextUserId :=
    find_setSequence_self _ _ _
  have hnonneg := h.nonneg
  refine ⟨fun u hu => ?_, ?_, ?_⟩
  · rcases List.mem_append.mp hu with hu | hu
    · exact h.safe u hu
    · rw [List.mem_singleton.mp hu]
      exact ⟨by simp only; omega, by simp only; omega⟩
  · rw [hsequence, Option.getD_some]
    refine maxOr0_le (by omega) fun id hid => ?_
    rw [Database.withUser_users, List.map_append] at hid
    rcases List.mem_append.mp hid with hid | hid
    · exact le_of_lt (lt_nextRowid hid)
    · simp only [List.map_cons, List.map_nil, List.mem_singleton] at hid
      exact hid.le
  · rw [hsequence, Option.getD_some]
    omega

end UserIds

theorem map_id_changeUser (db : Database) (userId now : Int) (change : UserChange) :
    (db.changeUser userId now change).users.map (·.id) = db.users.map (·.id) := by
  have hupdate : (db.updateUser userId (change.apply now)).users.map (·.id) =
      db.users.map (·.id) := by
    simp only [Database.updateUser, Database.mapUsers_users, List.map_map]
    refine List.map_congr_left fun u _ => ?_
    simp only [Function.comp_apply]
    split <;> simp
  unfold Database.changeUser
  split <;> exact hupdate

theorem AccountEffect.userIds {phc : PhcParser} {db db' : Database} {now : Int}
    {op : AccountOperation} (h : AccountEffect phc db now op db') (hids : UserIds db) :
    UserIds db' := by
  cases h with
  | same => exact hids
  | issue hok =>
    rw [issueSessionForUser_frame hok]
    exact hids.of_users rfl rfl
  | renewContext p => exact hids.of_users rfl rfl
  | renewForVault p => exact hids.of_users rfl rfl
  | revoke p => exact hids.of_users rfl rfl
  | created _ _ _ _ hroom _ => exact hids.withUser hroom
  | changed _ _ _ =>
    refine hids.of_users (map_id_changeUser _ _ _ _) ?_
    rw [changeUser_frame]
  | toggled _ _ => exact hids.of_users rfl rfl

namespace SessionTable

variable {db : Database}

/-- An update that keeps each row's user, revives none, and leaves valid rows valid. -/
theorem mapSessions (h : SessionTable db) {f : SessionRow → SessionRow}
    (hrow : ∀ s ∈ db.sessions, (f s).Valid true) (huser : ∀ s, (f s).userId = s.userId)
    (hrevoked : ∀ s, (f s).revokedAt = none → s.revokedAt = none) :
    SessionTable (db.mapSessions f) := by
  refine ⟨?_, by simpa using h.count, fun userId => le_trans ?_ (h.perUser userId)⟩
  · intro s hs
    obtain ⟨r, hr, rfl⟩ := List.mem_map.mp hs
    exact hrow r hr
  · simp only [Database.unrevokedSessionsOf, Database.mapSessions_sessions,
      ← List.countP_eq_length_filter, List.countP_map]
    refine Int.ofNat_le.mpr (List.countP_mono_left fun s _ hs => ?_)
    simp only [Function.comp_apply, huser, Bool.and_eq_true, decide_eq_true_eq,
      Option.isNone_iff_eq_none] at hs ⊢
    exact ⟨hs.1, hrevoked s hs.2⟩

theorem revokeSessions (h : SessionTable db) {now : Int} (hnow : now ≤ maxJsSafeInteger)
    (p : SessionRow → Bool) : SessionTable (db.revokeSessions now p) := by
  refine h.mapSessions (fun s hs => ?_) (fun s => by split <;> rfl) (fun s => ?_)
  · split
    · obtain ⟨huser, hlength, hglob, hcreated, hexpires, hlt, -⟩ := h.row s hs
      refine ⟨huser, hlength, hglob, hcreated, hexpires, hlt, ?_⟩
      intro revokedAt hrevoked
      rw [Option.mem_some_iff] at hrevoked
      exact ⟨hrevoked ▸ le_max_right _ _, hrevoked ▸ max_le hnow hcreated.2⟩
    · exact h.row s hs
  · split
    · simp
    · exact id

theorem renewSession (h : SessionTable db) {ttlSecs now : Int} (httl : 0 < ttlSecs)
    (hnow : 0 ≤ now) (hroom : now + ttlSecs * 1000 ≤ maxJsSafeInteger) (tokenHash : String)
    (authorized : SessionRow → Bool) :
    SessionTable (db.renewSession tokenHash ttlSecs now authorized) := by
  refine h.mapSessions (fun s hs => ?_) (fun s => by split <;> rfl) (fun s => by split <;> exact id)
  have hmono := renewSession_expiresAt httl hnow hroom tokenHash authorized s
  split at hmono
  · rename_i hrenew
    obtain ⟨huser, hlength, hglob, hcreated, hexpires, hlt, hrevoked⟩ := h.row s hs
    rw [if_pos hrenew]
    have heq := renewedExpiry_eq httl hnow hroom
    exact ⟨huser, hlength, hglob, hcreated, ⟨le_trans hexpires.1 hmono, heq ▸ hroom⟩,
      lt_of_lt_of_le hlt hmono, hrevoked⟩
  · rename_i hrenew
    rw [if_neg hrenew]
    exact h.row s hs

/-- The rows that an issue keeps are unrevoked, so its own count is of all that are left. -/
theorem issue (h : SessionTable db) {tokenHash : String} {userId ttlSecs now : Int}
    {sessions : List SessionRow} (hsafe : safeFrom 1 userId) (httl : 0 < ttlSecs)
    (hnow : 0 ≤ now) (hroom : now + ttlSecs * 1000 ≤ maxJsSafeInteger)
    (htoken : IsTokenDigest tokenHash)
    (hcount : ((db.sessions.filter (·.live now)).length : Int) < maxSessions)
    (hper : (((db.sessions.filter (·.live now)).filter fun s => s.userId = userId).length : Int) <
      maxSessionsPerUser)
    (hsessions : sessions = db.sessions.filter (·.live now) ++
      [issuedSession tokenHash userId ttlSecs now]) :
    SessionTable { db with sessions := sessions } := by
  subst hsessions
  obtain ⟨digest, hlength, rfl⟩ := htoken
  refine ⟨fun s hs => ?_, ?_, fun id => ?_⟩
  · rcases List.mem_append.mp hs with hs | hs
    · exact h.row s (List.mem_of_mem_filter hs)
    · rw [List.mem_singleton.mp hs]
      refine ⟨fun _ => hsafe, ?_, globOutside_hexEncode digest, ⟨hnow, ?_⟩, ⟨?_, hroom⟩, ?_, by
        simp [issuedSession]⟩
      · simp only [issuedSession]
        rw [sqlLength_hexEncode, hlength]
        rfl
      all_goals
        simp only [issuedSession]
        omega
  · simp only [List.length_append, List.length_singleton]
    omega
  · simp only [Database.unrevokedSessionsOf, List.filter_append, List.length_append]
    by_cases hid : userId = id
    · subst hid
      have hkept : (((db.sessions.filter (·.live now)).filter fun s =>
          s.userId = userId && s.revokedAt.isNone).length : Int) ≤
          ((db.sessions.filter (·.live now)).filter fun s => s.userId = userId).length := by
        simp only [← List.countP_eq_length_filter]
        refine Int.ofNat_le.mpr (List.countP_mono_left fun s _ hs => ?_)
        exact (Bool.and_eq_true _ _ ▸ hs).1
      have hnew := List.length_filter_le
        (fun s : SessionRow => s.userId = userId && s.revokedAt.isNone)
        [issuedSession (hexEncode digest) userId ttlSecs now]
      simp only [List.length_singleton] at hnew
      omega
    · have hnew : [issuedSession (hexEncode digest) userId ttlSecs now].filter
          (fun s => s.userId = id && s.revokedAt.isNone) = [] := by
        simp [issuedSession, hid]
      have hkept := (List.filter_sublist (p := (·.live now)) (l := db.sessions)).filter
        (fun s => s.userId = id && s.revokedAt.isNone)
      have hle := hkept.length_le
      have hold := h.perUser id
      unfold Database.unrevokedSessionsOf at hold
      rw [hnew, List.length_nil]
      omega

end SessionTable

theorem safeFrom_of_activeUser {db : Database} (h : UserIds db) {userId : Int}
    (hactive : db.activeUser userId = true) : safeFrom 1 userId := by
  obtain ⟨u, hu, hid, -⟩ := activeUser_iff.mp hactive
  exact hid ▸ h.safe u hu

/-- The bounds only read the sessions. -/
theorem SessionTable.congr {db db' : Database} (h : SessionTable db)
    (hsessions : db'.sessions = db.sessions) : SessionTable db' := by
  refine ⟨hsessions ▸ h.row, hsessions ▸ h.count, fun userId => ?_⟩
  have := h.perUser userId
  unfold Database.unrevokedSessionsOf at this ⊢
  rwa [hsessions]

theorem SessionChange.sessionTable {db db' : Database} {now ttlSecs : Int} {op : AccountOperation}
    (h : SessionChange db now op db'.sessions) (httl : 0 < ttlSecs)
    (hrange : InRange ttlSecs op now) (hids : UserIds db) (htable : SessionTable db) :
    SessionTable db' := by
  have hnow := hrange.nonneg
  have hroom := hrange.room
  generalize hsessions : db'.sessions = sessions at h
  cases h with
  | keep => exact htable.congr hsessions
  | issue hcount huser hper =>
    have hsame := hrange.ttl _ rfl
    subst hsame
    exact (htable.issue (safeFrom_of_activeUser hids huser) httl hnow hroom
      (hrange.token _ rfl) hcount hper rfl).congr hsessions
  | renewContext p | renewForVault p =>
    have hsame := hrange.ttl _ rfl
    subst hsame
    exact (htable.renewSession httl hnow hroom _ p).congr hsessions
  | revoke p => exact (htable.revokeSessions (by omega) p).congr hsessions

/-- What an issue deletes was not live at its reading. -/
theorem SessionChange.live_kept {db : Database} {now : Int} {op : AccountOperation}
    {sessions : List SessionRow} (h : SessionChange db now op sessions)
    (hissue : op.issues? ≠ none) {r : SessionRow} (hr : r ∈ db.sessions)
    (hlive : r.live now = true) : r ∈ sessions := by
  cases h with
  | keep => exact hr
  | issue _ _ _ => exact List.mem_append_left _ (List.mem_filter.mpr ⟨hr, hlive⟩)
  | renewContext p | renewForVault p => exact absurd rfl hissue
  | revoke p hop => exact absurd hop hissue

/-- Every operation but an issue keeps each row, and lowers no expiry. -/
theorem SessionChange.expiresAt_le {db : Database} {now ttlSecs : Int} {op : AccountOperation}
    {sessions : List SessionRow} (h : SessionChange db now op sessions) (httl : 0 < ttlSecs)
    (hrange : InRange ttlSecs op now) (hissue : op.issues? = none) {r : SessionRow}
    (hr : r ∈ db.sessions) :
    ∃ r' ∈ sessions, r'.tokenHash = r.tokenHash ∧ r.expiresAt ≤ r'.expiresAt := by
  cases h with
  | keep => exact ⟨r, hr, rfl, le_refl _⟩
  | issue _ _ _ => cases hissue
  | renewContext p | renewForVault p =>
    have hsame := hrange.ttl _ rfl
    subst hsame
    refine ⟨_, List.mem_map_of_mem hr, by split <;> rfl, ?_⟩
    exact renewSession_expiresAt httl hrange.nonneg hrange.room _ p r
  | revoke p _ => exact ⟨_, List.mem_map_of_mem hr, by split <;> rfl, by split <;> exact le_refl _⟩

/-- An issue, committed or not, leaves the users alone. -/
theorem Store.Account.users_of_issue {phc : PhcParser} {s s' : Store} {op : AccountOperation}
    {now : Int} (h : s.Account phc (op, now) s') (hissue : op.issues? ≠ none) :
    s'.db.users = s.db.users := by
  cases op with
  | issueSessionForUser tokenHash userId ttlSecs =>
    cases h with
    | commit hok => exact (issueSessionForUser_ok hok).2
    | rollback _ => rfl
  | _ => exact absurd rfl hissue

/-! ## Runs -/

/-- The readings of a run may go back and forth: the table keeps its bounds, and is accepted
at every instant.  From any state so reached, an issue keeps every session that is live at
its reading, and its user as it was, and no other operation lowers an expiry. -/
theorem session_table_of_run {phc : PhcParser} {s₀ s : Store}
    {as : List (AccountOperation × Int)} {ttlSecs : Int} (httl : 0 < ttlSecs)
    (htable : SessionTable s₀.db) (hids : UserIds s₀.db)
    (hrun : Run (Guarded (fun _ a => InRange ttlSecs a.1 a.2) (Store.Account phc)) s₀ as s) :
    SessionTable s.db ∧ (∀ now, SessionsAccepted s.db now) ∧
      ∀ op now s', InRange ttlSecs op now → s.Account phc (op, now) s' →
        (op.issues? ≠ none → s'.db.users = s.db.users ∧
          ∀ r ∈ s.db.sessions, r.live now = true → r ∈ s'.db.sessions) ∧
        (op.issues? = none → ∀ r ∈ s.db.sessions, ∃ r' ∈ s'.db.sessions,
          r'.tokenHash = r.tokenHash ∧ r.expiresAt ≤ r'.expiresAt) := by
  have hboth : SessionTable s.db ∧ UserIds s.db := by
    refine Run.invariant_of_guard (I := fun s => SessionTable s.db ∧ UserIds s.db) ?_
      ⟨htable, hids⟩ hrun
    rintro s ⟨op, now⟩ s' ⟨ht, hi⟩ hrange hstep
    exact ⟨hstep.effect.sessionChange.sessionTable httl hrange hi ht, hstep.effect.userIds hi⟩
  refine ⟨hboth.1, hboth.1.accepted, fun op now s' hrange hstep => ⟨fun hissue => ?_, ?_⟩⟩
  · exact ⟨hstep.users_of_issue hissue,
      fun r hr hlive => hstep.effect.sessionChange.live_kept hissue hr hlive⟩
  · intro hissue r hr
    exact hstep.effect.sessionChange.expiresAt_le httl hrange hissue hr

/-- A second sign-in, and then a renewal by a clock that was set back. -/
theorem session_table_of_run_back :
    let s₀ : Store := ⟨personalServer, constraints_personalServer⟩
    let s₁ := s₀.account onePhc (.issueSessionForUser (hexEncode (List.replicate 32 1)) 1 3600) 900
    let s₂ := s₁.account onePhc (.authContextHashWithRenewal someTokenHash 3600) 100
    s₂.db.sessions.length = 2 ∧ SessionTable s₂.db := by
  intro s₀ s₁ s₂
  have htable : SessionTable s₀.db := by
    refine ⟨by decide +kernel, by decide +kernel, fun userId => ?_⟩
    have hle := List.length_filter_le
      (fun s : SessionRow => s.userId = userId && s.revokedAt.isNone) s₀.db.sessions
    have hone : s₀.db.sessions.length = 1 := rfl
    unfold Database.unrevokedSessionsOf maxSessionsPerUser
    omega
  have hids : UserIds s₀.db := ⟨by decide +kernel, by decide +kernel, by decide +kernel⟩
  have hissue : InRange 3600 (.issueSessionForUser (hexEncode (List.replicate 32 1)) 1 3600) 900 :=
    ⟨by decide, by decide, by decide, fun t ht => ⟨List.replicate 32 1, rfl, by
      simpa [AccountOperation.issues?] using ht.symm⟩⟩
  have hrenew : InRange 3600 (.authContextHashWithRenewal someTokenHash 3600) 100 :=
    ⟨by decide, by decide, by decide, fun t ht => by simp [AccountOperation.issues?] at ht⟩
  refine ⟨by decide +kernel, (session_table_of_run (by decide) htable hids
    (.cons ⟨hissue, s₀.account_step onePhc _ _⟩
      (.cons ⟨hrenew, s₁.account_step onePhc _ _⟩ (.nil _)))).1⟩

end Blackglass
