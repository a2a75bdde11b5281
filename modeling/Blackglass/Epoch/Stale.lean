import Blackglass.Authority
import Blackglass.Epoch.Renaming

/-!
# A recovered stale backup is inert

An old backup knows accounts, sessions and memberships that were revoked after it was taken.
`recover_stale_backup` therefore copies it without any authority: vaults get new identities,
which drops memberships and sessions, every user is disabled and self-registration is off.
Such a database is `Sealed`, and nothing that the server does online unseals it: a request
needs a session, a session an active user, an active user a registration or an offline
command, and a registration an active administrator.
-/

namespace Blackglass

open Outcome Transition

/-- What the clock said at each point of a recovery. -/
structure RecoveryReadings where
  sourceVerifiedAt : Int
  copyVerifiedAt : Int
  rotatedAt : Int
  usersDisabledAt : Int
  settingsDisabledAt : Int
  verifiedAt : Int

namespace Database

/-- `UPDATE users SET status='disabled',updated_at=MAX(updated_at,?)`. -/
def disableUsers (db : Database) (now : Int) : Database :=
  db.mapUsers fun u => { u with status := .disabled, updatedAt := max u.updatedAt now }

/-- `UPDATE server_settings SET self_registration_enabled=0,updated_at=MAX(updated_at,?)`. -/
def disableSelfRegistration (db : Database) (now : Int) : Database :=
  { db with serverSettings := db.serverSettings.map fun row =>
      { row with selfRegistrationEnabled := false, updatedAt := max row.updatedAt now } }

/-- `recover_stale_backup`: the database that is written to the destination. -/
def recoverStaleBackup (phc : PhcParser) (db : Database) (newIds : List String)
    (t : RecoveryReadings) : Except DbError Database := do
  verifyConnection phc db t.sourceVerifiedAt
  let db := db.offline
  verifyConnection phc db t.copyVerifiedAt
  let (_, db) ← db.rotateRecoveryEpoch newIds t.rotatedAt
  let db := { db with sessions := [] }
  let db := db.disableUsers t.usersDisabledAt
  let db := db.disableSelfRegistration t.settingsDisabledAt
  verifyConnection phc db t.verifiedAt
  return db

end Database

/-! ## Signing in -/

/-- `model.rs`, `UserCredential`. -/
structure UserCredential where
  id : Int
  email : String
  name : String
  passwordHash : String
  active : Bool
  role : UserRole
deriving DecidableEq

/-- `SELECT id,email,name,password_hash,status='active',role FROM users WHERE
email_canonical=?`. -/
def Database.signinCandidate (db : Database) (canonicalEmail : String) : Option UserCredential :=
  (db.users.find? fun u => u.emailCanonical = canonicalEmail).map fun u =>
    { id := u.id, email := u.email, name := u.name, passwordHash := u.passwordHash,
      active := u.status = .active, role := u.role }

/-- What an unknown user's password is compared with. -/
def dummyPasswordHash : String :=
  "$argon2id$v=19$m=65536,t=5,p=4$YmxhY2tnbGFzcy1yZXNvdXJjZS1lbnZlbG9wZS12MQ" ++
    "$qF1GQ0hLTNgx8hhl7Qo3R7r1pSYB+eYXdX4KtmWP5VI"

/-- `authenticate_credentials`, once it is admitted.  The comparison of a password with a
hash is a library of the server. -/
def authenticateCredentials (verifyPassword : String → String → Bool) (db : Database)
    (email password : Option String) : Except String UserCredential :=
  let canonicalEmail := email.bind fun email =>
    (canonicalizeEmail email).toOption.map (·.canonical)
  let candidate := canonicalEmail.bind db.signinCandidate
  let encoded := ((candidate.filter (·.active)).map (·.passwordHash)).getD dummyPasswordHash
  let passwordOk := verifyPassword (password.getD "") encoded
  match candidate.filter fun user => user.active && passwordOk with
  | some user => .ok user
  | none => .error "Invalid email or password"

/-! ## Sealed databases -/

/-- Nobody is anybody. -/
structure Sealed (db : Database) : Prop where
  users : ∀ u ∈ db.users, u.status = .disabled
  sessions : db.sessions = []
  memberships : db.memberships = []
  settings : ∀ row ∈ db.serverSettings, row.selfRegistrationEnabled = false
  settingsRow : ∃ row ∈ db.serverSettings, row.id = 1

theorem recoverStaleBackup_ok {phc : PhcParser} {db db' : Database} {newIds : List String}
    {t : RecoveryReadings} (h : Database.recoverStaleBackup phc db newIds t = .ok db') :
    Database.verifyConnection phc db t.sourceVerifiedAt = .ok () ∧
      ∃ n rotated, db.offline.rotateRecoveryEpoch newIds t.rotatedAt = .ok (n, rotated) ∧
        db' = (({ rotated with sessions := [] } : Database).disableUsers
          t.usersDisabledAt).disableSelfRegistration t.settingsDisabledAt ∧
        Database.verifyConnection phc db' t.verifiedAt = .ok () := by
  simp only [Database.recoverStaleBackup, bind_eq_ok, exists_unit, pure_eq_ok, Prod.exists] at h
  obtain ⟨hsource, -, n, rotated, hrotate, hverified, rfl⟩ := h
  exact ⟨hsource, n, rotated, hrotate, rfl, hverified⟩

/-- A recovered backup is sealed. -/
theorem Sealed.of_recoverStaleBackup {phc : PhcParser} {db db' : Database} {newIds : List String}
    {t : RecoveryReadings} (hc : Constraints db) (hids : FreshIds db newIds)
    (h : Database.recoverStaleBackup phc db newIds t = .ok db') : Sealed db' := by
  obtain ⟨hsource, n, rotated, hrotate, rfl, hverified⟩ := recoverStaleBackup_ok h
  have hversion := (verifyRecordedSchema_ok.mp (verifyConnection_ok.mp hsource)).2.2.2.2
  have hversion' := (verifyRecordedSchema_ok.mp (verifyConnection_ok.mp hverified)).2.2.2.2
  have hoffline : Constraints db.offline := { hc with }
  have hdisjoint := (hversion.logical.markers ((hversion.tables _).mpr (by decide))).disjoint
  have hrotated := rotated_of_ok hoffline { hids with } hdisjoint hrotate
  constructor
  · intro u hu
    obtain ⟨w, -, rfl⟩ := List.mem_map.mp hu
    rfl
  · rfl
  · exact hrotated.memberships
  · intro row hrow
    obtain ⟨old, -, rfl⟩ := List.mem_map.mp hrow
    rfl
  · obtain ⟨row, hrow⟩ := List.length_pos_iff_exists_mem.mp
      (Nat.lt_of_lt_of_eq Nat.one_pos (hversion'.v7 (by decide)).settings.symm)
    obtain ⟨hmem, hid⟩ := List.mem_filter.mp hrow
    exact ⟨row, hmem, by simpa using (Bool.and_eq_true_iff.mp hid).1⟩

namespace Sealed

variable {phc : PhcParser} {db db' : Database}

theorem activeUser_eq_false (h : Sealed db) (userId : Int) : db.activeUser userId = false := by
  rw [Bool.eq_false_iff, ne_eq, activeUser_iff]
  rintro ⟨u, hu, -, hactive⟩
  rw [h.users u hu] at hactive
  cases hactive

theorem selfRegistrationEnabled_eq (h : Sealed db) : db.selfRegistrationEnabled = .ok false := by
  unfold Database.selfRegistrationEnabled
  cases hfind : db.serverSettings.find? fun row => row.id = 1 with
  | none =>
    obtain ⟨row, hrow, hid⟩ := h.settingsRow
    exact absurd hid (by simpa using List.find?_eq_none.mp hfind row hrow)
  | some row => exact congrArg _ (h.settings row (List.mem_of_find?_eq_some hfind))

theorem setSelfRegistrationEnabled_eq (h : Sealed db) (administratorId now : Int)
    (enabled : Bool) : db.setSelfRegistrationEnabled administratorId enabled now =
      .error (.bail "administrator authorization changed") := by
  have hnobody : (db.users.any fun u =>
      u.id = administratorId && u.status = .active && u.role = .admin) = false := by
    rw [List.any_eq_false]
    intro u hu
    simp [h.users u hu]
  simp [Database.setSelfRegistrationEnabled, hnobody, rejectIf]

/-- Nobody signs in, whatever the password. -/
theorem authenticateCredentials_eq (h : Sealed db) (verifyPassword : String → String → Bool)
    (email password : Option String) : authenticateCredentials verifyPassword db email password =
      .error "Invalid email or password" := by
  have hinactive : ∀ canonicalEmail, ∀ user ∈ db.signinCandidate canonicalEmail,
      user.active = false := by
    intro canonicalEmail user huser
    obtain ⟨u, hu, rfl⟩ := Option.map_eq_some_iff.mp huser
    simp [h.users u (List.mem_of_find?_eq_some hu)]
  have hnone : ∀ (canonicalEmail : Option String) (passwordOk : Bool),
      ((canonicalEmail.bind db.signinCandidate).filter fun user => user.active && passwordOk) =
        none := by
    intro canonicalEmail passwordOk
    refine Option.filter_eq_none_iff.mpr fun user huser => ?_
    obtain ⟨e, -, huser⟩ := Option.bind_eq_some_iff.mp huser
    simp [hinactive e user huser]
  simp only [authenticateCredentials, hnone]

end Sealed

/-! ## What the server does -/

/-- The operations that a client of the running server can cause; the others are commands of
the operator. -/
def AccountOperation.online : AccountOperation → Bool
  | issueSessionForUser .. | authContextHashWithRenewal .. | renewSessionForVault ..
  | revokeSession .. | createSelfRegisteredUser .. | setSelfRegistrationEnabled .. => true
  | revokeAllSessions | revokeUserSessions .. | createUser .. | setUserPassword ..
  | setUserEmail .. | setUserName .. | setUserStatus .. | setUserRole .. => false

inductive OnlineActivity where
  | activity (activity : Activity)
  | startup

/-- The server serves a request, or an operation on accounts that a client has caused, or it
is started again. -/
inductive Store.Serve (phc : PhcParser) (s : Store) : OnlineActivity → Store → Prop where
  | request {request : Request} {t : Readings} {s' : Store} : s.Step (request, t) s' →
      Store.Serve phc s (.activity (.request request t)) s'
  | account {op : AccountOperation} {now : Int} {s' : Store} : op.online = true →
      s.Account phc (op, now) s' → Store.Serve phc s (.activity (.account op now)) s'
  | startup {s' : Store} : s'.db = s.db.initializeRuntimeStorageUsage →
      Store.Serve phc s .startup s'

section Serve

variable {phc : PhcParser} {db db' : Database}

theorem Sealed.createSelfRegisteredUser_eq (h : Sealed db) {email name passwordHash : String}
    {now : Int} {result : RegistrationResult}
    (hok : db.createSelfRegisteredUser phc email name passwordHash now = .ok (result, db')) :
    result = .disabled ∧ db' = db := by
  simp only [Database.createSelfRegisteredUser, h.selfRegistrationEnabled_eq, bind_eq_ok,
    rejectIf_eq_ok, exists_unit, Except.ok.injEq, exists_eq_left', if_true, pure_eq_ok,
    Prod.mk.injEq] at hok
  obtain ⟨-, -, -, -, -, hresult, hdb⟩ := hok
  exact ⟨hresult.symm, hdb.symm⟩

theorem eq_of_sessions_nil (h : db.sessions = []) {f : SessionRow → SessionRow} :
    db.mapSessions f = db := by
  show { db with sessions := db.sessions.map f } = db
  rw [h, List.map_nil, ← h]

/-- No client of the server changes a sealed database by an operation on accounts. -/
theorem Sealed.account (h : Sealed db) {op : AccountOperation} {now : Int}
    (honline : op.online = true) (hok : op.execute phc db now = .ok db') : db' = db := by
  cases op with
  | issueSessionForUser tokenHash userId ttlSecs =>
    simp only [AccountOperation.execute, Database.issueSessionForUser, bind_eq_ok,
      rejectIf_eq_ok, exists_unit, h.activeUser_eq_false, not_true_eq_false, false_and,
      and_false] at hok
  | authContextHashWithRenewal tokenHash ttlSecs =>
    rw [← Except.ok.inj hok]
    unfold Database.authContextHashWithRenewal
    split
    · split
      · rfl
      · split
        · rfl
        · exact eq_of_sessions_nil h.sessions
    · rfl
  | renewSessionForVault tokenHash vault ttlSecs =>
    rw [← Except.ok.inj hok]
    unfold Database.renewSessionForVault
    split
    · rfl
    · split
      · rfl
      · split
        · rfl
        · exact eq_of_sessions_nil h.sessions
  | revokeSession tokenHash =>
    rw [← Except.ok.inj hok]
    exact eq_of_sessions_nil h.sessions
  | createSelfRegisteredUser email name passwordHash =>
    simp only [AccountOperation.execute, bind_eq_ok, pure_eq_ok, Prod.exists] at hok
    obtain ⟨result, db₁, hok, rfl⟩ := hok
    exact (h.createSelfRegisteredUser_eq hok).2
  | setSelfRegistrationEnabled administratorId enabled =>
    cases (h.setSelfRegistrationEnabled_eq administratorId now enabled).symm.trans hok
  | _ => cases honline

/-- Whatever the server does with a sealed database, it stays as it is, but for the counter
of the connection. -/
theorem Sealed.serve {s s' : Store} {a : OnlineActivity} (h : Sealed s.db)
    (hstep : s.Serve phc a s') : s'.db.offline = s.db.offline := by
  cases hstep with
  | request hstep =>
    cases hstep with
    | commit hok =>
      obtain ⟨⟨r, hr, -⟩, -⟩ := (execute_ok hok).authorized
      rw [h.sessions] at hr
      cases hr
    | rollback _ => rfl
  | account honline haccount =>
    cases haccount with
    | commit hok => rw [h.account honline hok]
    | rollback _ => rfl
  | startup hdb => rw [hdb]; rfl

theorem Sealed.of_offline (h : Sealed db) (heq : db'.offline = db.offline) : Sealed db' := by
  have hoffline : Sealed db'.offline := heq ▸ ⟨h.users, h.sessions, h.memberships, h.settings,
    h.settingsRow⟩
  exact ⟨hoffline.users, hoffline.sessions, hoffline.memberships, hoffline.settings,
    hoffline.settingsRow⟩

theorem Sealed.run {s s' : Store} {as : List OnlineActivity} (h : Sealed s.db)
    (hrun : Run (Store.Serve phc) s as s') : s'.db.offline = s.db.offline :=
  hrun.invariant (I := fun s' : Store => s'.db.offline = s.db.offline)
    (fun hsame hstep => ((h.of_offline hsame).serve hstep).trans hsame) rfl

end Serve

theorem Constraints.recoverStaleBackup {phc : PhcParser} {db db' : Database}
    {newIds : List String} {t : RecoveryReadings} (hc : Constraints db)
    (h : Database.recoverStaleBackup phc db newIds t = .ok db') : Constraints db' := by
  obtain ⟨-, n, rotated, hrotate, rfl, -⟩ := recoverStaleBackup_ok h
  have hoffline : Constraints db.offline := { hc with }
  have hcleared := (hoffline.rotateRecoveryEpoch hrotate).clearSessions
  have husers : Constraints (({ rotated with sessions := [] } : Database).disableUsers
      t.usersDisabledAt) := by
    refine hcleared.withUsers ?_ ?_ fun u hu => ⟨_, List.mem_map_of_mem hu, rfl⟩
    · rw [List.map_map]
      exact hcleared.userId
    · rw [List.map_map]
      exact hcleared.userEmail
  exact { husers with }

/-- After a stale backup was recovered, whatever clients ask of the server, with whatever
tokens: no session is valid, no user active, nobody a member of a vault; nobody can sign in
or register or switch registration on; and no vault, revision or content is changed. -/
theorem recovered_backup_stays_inert {phc : PhcParser} {s s' : Store} {db : Database}
    {uuids : List (Vector UInt8 16)} {newIds : List String} {t : RecoveryReadings}
    {as : List OnlineActivity}
    (hdraw : drawIds (uuids.map uuidText) s.db.reservedIds s.db.vaults.length = some newIds)
    (hrecovered : Database.recoverStaleBackup phc s.db newIds t = .ok db)
    (hrun : Run (Store.Serve phc) ⟨db, s.constraints.recoverStaleBackup hrecovered⟩ as s') :
    (∀ tokenHash vaultId now, s'.db.authContextHash tokenHash now = none ∧
        s'.db.validSessionForVault tokenHash vaultId now = false) ∧
      (∀ u ∈ s'.db.users, u.status = .disabled) ∧ s'.db.memberships = [] ∧
      s'.db.selfRegistrationEnabled = .ok false ∧
      (∀ administratorId enabled now,
        s'.db.setSelfRegistrationEnabled administratorId enabled now =
          .error (.bail "administrator authorization changed")) ∧
      (∀ verifyPassword email password,
        authenticateCredentials verifyPassword s'.db email password =
          .error "Invalid email or password") ∧
      (∀ (request : Request) t, ∃ error, request.execute s'.db t = .error error) ∧
      s'.db.vaults = db.vaults ∧ s'.db.revisions = db.revisions ∧
      s'.db.revisionContent = db.revisionContent := by
  have hstart : Sealed db := .of_recoverStaleBackup s.constraints (.of_drawIds hdraw) hrecovered
  have hsame : s'.db.offline = db.offline := hstart.run hrun
  have hsealed : Sealed s'.db := hstart.of_offline hsame
  have hvaults : s'.db.vaults = db.vaults := by
    simpa using congrArg Database.vaults hsame
  have hrevisions : s'.db.revisions = db.revisions := by
    simpa using congrArg Database.revisions hsame
  have hcontent : s'.db.revisionContent = db.revisionContent := by
    simpa using congrArg Database.revisionContent hsame
  refine ⟨fun tokenHash vaultId now => ⟨?_, ?_⟩, hsealed.users, hsealed.memberships,
    hsealed.selfRegistrationEnabled_eq, fun administratorId enabled now =>
      hsealed.setSelfRegistrationEnabled_eq administratorId now enabled,
    hsealed.authenticateCredentials_eq, fun request t => ?_, hvaults, hrevisions, hcontent⟩
  · refine authContextHash_eq_none fun r hr => ?_
    rw [hsealed.sessions] at hr
    cases hr
  · simp [Database.validSessionForVault, hsealed.sessions]
  · cases hexecute : request.execute s'.db t with
    | error error => exact ⟨error, rfl⟩
    | ok result =>
      obtain ⟨⟨r, hr, -⟩, -⟩ := (execute_ok hexecute).authorized
      rw [hsealed.sessions] at hr
      cases hr

/-- The personal server, recovered as a stale backup. -/
def recoveredServer : Database :=
  (rotatedServer.disableUsers 600).disableSelfRegistration 600

/-- The owner's token and vault id of before the recovery are of no use after it, and the
owner cannot sign in any more. -/
theorem recovered_backup_stays_inert_personalServer :
    let s' : Store := Store.account onePhc
      (Store.next ⟨recoveredServer.initializeRuntimeStorageUsage, by constructor <;> decide +kernel⟩
        (.renameVault 1 someTokenHash (uuidText (Vector.replicate 16 0)) "Mine") ⟨700, 700⟩)
      (.issueSessionForUser someTokenHash 1 3600) 800
    personalServer.activeUser 1 = true ∧ s'.db.authContextHash someTokenHash 800 = none ∧
      s'.db.vaults = recoveredServer.vaults := by
  intro s'
  have hdraw : drawIds ([Vector.replicate 16 0].map uuidText) personalStore.db.reservedIds
      personalStore.db.vaults.length = some [uuidText (Vector.replicate 16 0)] := by
    decide +kernel
  have hrecovered : Database.recoverStaleBackup onePhc personalStore.db
      [uuidText (Vector.replicate 16 0)] ⟨500, 500, 600, 600, 600, 700⟩ = .ok recoveredServer := by
    decide +kernel
  have hrun : Run (Store.Serve onePhc)
      ⟨recoveredServer, personalStore.constraints.recoverStaleBackup hrecovered⟩
      [.startup, .activity (.request
        (.renameVault 1 someTokenHash (uuidText (Vector.replicate 16 0)) "Mine") ⟨700, 700⟩),
        .activity (.account (.issueSessionForUser someTokenHash 1 3600) 800)] s' :=
    .cons (.startup rfl) (.cons (.request (Store.step_next _ _ _))
      (.cons (.account rfl (Store.account_step _ _ _ _)) (.nil _)))
  obtain ⟨htokens, -, -, -, -, -, -, hvaults, -⟩ :=
    recovered_backup_stays_inert hdraw hrecovered hrun
  exact ⟨by decide +kernel, (htokens someTokenHash "" 800).1, hvaults⟩

end Blackglass
