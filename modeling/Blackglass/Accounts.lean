import Blackglass.Users
import Blackglass.Lib.Transition

/-!
# Account operations

The operations on sessions and users as one type, so that a run over all of them is a list.
Each is one transaction that reads the clock once.  `AccountEffect` says what a committed
one has done: however many operations there are, a session table only ever changes by an
issue, a renewal or a revocation, and a user table by an insertion or by the change of
one row.
-/

namespace Blackglass

open Outcome Rows

/-- What the operations `set_user_*` write besides `updated_at`. -/
inductive UserChange where
  | password (passwordHash : String)
  | email (email : CanonicalEmail)
  | name (name : String)
  | status (status : UserStatus)
  | role (role : UserRole)
deriving DecidableEq

namespace UserChange

def apply (now : Int) : UserChange → UserRow → UserRow
  | .password hash, u => { u with passwordHash := hash, updatedAt := now }
  | .email e, u => { u with emailCanonical := e.canonical, email := e.display, updatedAt := now }
  | .name n, u => { u with name := n, updatedAt := now }
  | .status s, u => { u with status := s, updatedAt := now }
  | .role r, u => { u with role := r, updatedAt := now }

/-- Whether the change revokes the user's sessions. -/
def revokes : UserChange → Bool
  | .name _ | .status .active => false
  | .password _ | .email _ | .status .disabled | .role _ => true

@[simp] theorem apply_id (now : Int) (c : UserChange) (u : UserRow) :
    (c.apply now u).id = u.id := by
  cases c <;> rfl

@[simp] theorem apply_createdAt (now : Int) (c : UserChange) (u : UserRow) :
    (c.apply now u).createdAt = u.createdAt := by
  cases c <;> rfl

@[simp] theorem apply_updatedAt (now : Int) (c : UserChange) (u : UserRow) :
    (c.apply now u).updatedAt = now := by
  cases c <;> rfl

/-- A change that leaves the sessions alone disables nobody. -/
theorem active_of_not_revokes {now : Int} {c : UserChange} {u : UserRow} (h : c.revokes = false)
    (hu : u.status = .active) : (c.apply now u).status = .active := by
  cases c with
  | name n => exact hu
  | status s =>
    cases s with
    | active => rfl
    | disabled => cases h
  | password _ => cases h
  | email _ => cases h
  | role _ => cases h

end UserChange

inductive AccountOperation where
  | issueSessionForUser (tokenHash : String) (userId ttlSecs : Int)
  | authContextHashWithRenewal (tokenHash : String) (ttlSecs : Int)
  | renewSessionForVault (tokenHash vault : String) (ttlSecs : Int)
  | revokeSession (tokenHash : String)
  | revokeAllSessions
  | revokeUserSessions (userId : Int)
  | createUser (email name passwordHash : String)
  | createSelfRegisteredUser (email name passwordHash : String)
  | setSelfRegistrationEnabled (administratorId : Int) (enabled : Bool)
  | setUserPassword (userId : Int) (passwordHash : String)
  | setUserEmail (userId : Int) (value : String)
  | setUserName (userId : Int) (value : String)
  | setUserStatus (userId : Int) (status : String)
  | setUserRole (userId : Int) (role : String)
deriving DecidableEq

namespace AccountOperation

/-- The transaction of an operation, without its answer. -/
def execute (phc : PhcParser) (db : Database) (now : Int) :
    AccountOperation → Except DbError Database
  | issueSessionForUser tokenHash userId ttlSecs =>
    db.issueSessionForUser tokenHash userId ttlSecs now
  | authContextHashWithRenewal tokenHash ttlSecs =>
    .ok (db.authContextHashWithRenewal tokenHash ttlSecs now).2
  | renewSessionForVault tokenHash vault ttlSecs =>
    .ok (db.renewSessionForVault tokenHash vault ttlSecs now).2
  | revokeSession tokenHash => .ok (db.revokeSession tokenHash now)
  | revokeAllSessions => .ok (db.revokeAllSessions now)
  | revokeUserSessions userId => do
    let (_, db) ← db.revokeUserSessions userId now
    return db
  | createUser email name passwordHash => do
    let (_, db) ← db.createUser phc email name passwordHash now
    return db
  | createSelfRegisteredUser email name passwordHash => do
    let (_, db) ← db.createSelfRegisteredUser phc email name passwordHash now
    return db
  | setSelfRegistrationEnabled administratorId enabled =>
    db.setSelfRegistrationEnabled administratorId enabled now
  | setUserPassword userId passwordHash => db.setUserPassword phc userId passwordHash now
  | setUserEmail userId value => db.setUserEmail userId value now
  | setUserName userId value => db.setUserName userId value now
  | setUserStatus userId status => db.setUserStatus userId status now
  | setUserRole userId role => db.setUserRole userId role now

/-- The user whose row an operation `set_user_*` writes. -/
def target? : AccountOperation → Option Int
  | setUserPassword userId _ | setUserEmail userId _ | setUserName userId _
  | setUserStatus userId _ | setUserRole userId _ => some userId
  | issueSessionForUser .. | authContextHashWithRenewal .. | renewSessionForVault ..
  | revokeSession .. | revokeAllSessions | revokeUserSessions .. | createUser ..
  | createSelfRegisteredUser .. | setSelfRegistrationEnabled .. => none

/-- The hash of the token that an operation draws. -/
def issues? : AccountOperation → Option String
  | issueSessionForUser tokenHash .. => some tokenHash
  | _ => none

theorem issues?_of_target? {op : AccountOperation} {userId : Int} (h : op.target? = some userId) :
    op.issues? = none := by
  cases op with
  | issueSessionForUser _ _ _ => cases h
  | _ => rfl

end AccountOperation

/-! ## The effect of an operation -/

namespace Database

/-- The update of one user, with the revocation that goes with it. -/
def changeUser (db : Database) (userId now : Int) (change : UserChange) : Database :=
  let changed := db.updateUser userId (change.apply now)
  if change.revokes then changed.revokeSessionsOf userId now else changed

end Database

/-- The checks a change has passed before it is written. -/
def UserChange.Accepted (phc : PhcParser) (db : Database) (userId : Int) : UserChange → Prop
  | .password hash => passwordHashIsProductionGrade phc hash = true
  | .email e => (∃ value, canonicalizeEmail value = .ok e) ∧
      ∀ u ∈ db.users, u.id ≠ userId → u.emailCanonical ≠ e.canonical
  | .name n => ∃ value, normalizeDisplayName value = .ok n
  | .status _ | .role _ => True

/-- What a committed operation has done. -/
inductive AccountEffect (phc : PhcParser) (db : Database) (now : Int) :
    AccountOperation → Database → Prop where
  /-- A registration that was refused, or a token that needed no renewal. -/
  | same {op} : AccountEffect phc db now op db
  | issue {tokenHash userId ttlSecs db'} :
      db.issueSessionForUser tokenHash userId ttlSecs now = .ok db' →
      AccountEffect phc db now (.issueSessionForUser tokenHash userId ttlSecs) db'
  | renewContext {tokenHash ttlSecs} (authorized : SessionRow → Bool) :
      AccountEffect phc db now (.authContextHashWithRenewal tokenHash ttlSecs)
        (db.renewSession tokenHash ttlSecs now authorized)
  | renewForVault {tokenHash vault ttlSecs} (authorized : SessionRow → Bool) :
      AccountEffect phc db now (.renewSessionForVault tokenHash vault ttlSecs)
        (db.renewSession tokenHash ttlSecs now authorized)
  | revoke {op : AccountOperation} (p : SessionRow → Bool) :
      op.issues? = none → AccountEffect phc db now op (db.revokeSessions now p)
  | created {op} {email : CanonicalEmail} {name passwordHash : String} :
      (∃ value, canonicalizeEmail value = .ok email) →
      (∃ value, normalizeDisplayName value = .ok name) →
      passwordHashIsProductionGrade phc passwordHash = true →
      (db.users.length : Int) < maxUsers →
      (db.sequence "users").getD 0 < maxJsSafeInteger →
      (∀ u ∈ db.users, u.emailCanonical ≠ email.canonical) →
      AccountEffect phc db now op (db.withUser (email.toRow name passwordHash now))
  | changed {op : AccountOperation} {userId : Int} {change : UserChange} :
      op.target? = some userId → db.hasUser userId = true → change.Accepted phc db userId →
      AccountEffect phc db now op (db.changeUser userId now change)
  | toggled {administratorId : Int} {enabled : Bool} {settings : List ServerSettingsRow} :
      (∃ u ∈ db.users, u.id = administratorId ∧ u.status = .active ∧ u.role = .admin) →
      (∀ row ∈ settings, row ∈ db.serverSettings ∨ row.updatedBy = administratorId) →
      AccountEffect phc db now (.setSelfRegistrationEnabled administratorId enabled)
        { db with serverSettings := settings }

section Inversion

variable {phc : PhcParser} {db db' : Database} {now : Int}

theorem mem_of_user? {id : Int} {u : UserRow} (h : db.user? id = some u) :
    u ∈ db.users ∧ u.id = id :=
  ⟨List.mem_of_find?_eq_some h, by simpa using List.find?_some h⟩

theorem hasUser_of_user? {id : Int} {u : UserRow} (h : db.user? id = some u) :
    db.hasUser id = true :=
  hasUser_iff.mpr ⟨u, mem_of_user? h⟩

theorem insertUser_ok {row : UserRow} {id : Int} :
    db.insertUser row = .ok (id, db') ↔
      (∀ u ∈ db.users, u.emailCanonical ≠ row.emailCanonical) ∧ id = db.nextUserId ∧
        db' = db.withUser row := by
  simp only [Database.insertUser, bind_eq_ok, rejectIf_eq_ok, exists_unit, pure_eq_ok,
    Prod.mk.injEq, List.any_eq_true, decide_eq_true_eq, not_exists, not_and]
  exact and_congr_right fun _ => and_congr eq_comm eq_comm

theorem createUser_ok {email name passwordHash : String} {id : Int}
    (h : db.createUser phc email name passwordHash now = .ok (id, db')) (op : AccountOperation) :
    AccountEffect phc db now op db' := by
  simp only [Database.createUser, bind_eq_ok, rejectIf_eq_ok, exists_unit, insertUser_ok,
    Bool.not_eq_false, not_le] at h
  obtain ⟨e, he, n, hn, hhash, hcount, hseq, hfresh, -, rfl⟩ := h
  exact .created ⟨_, he⟩ ⟨_, hn⟩ hhash hcount hseq hfresh

theorem createSelfRegisteredUser_ok {email name passwordHash : String} {r : RegistrationResult}
    (h : db.createSelfRegisteredUser phc email name passwordHash now = .ok (r, db'))
    (op : AccountOperation) : AccountEffect phc db now op db' := by
  simp only [Database.createSelfRegisteredUser, bind_eq_ok, rejectIf_eq_ok, exists_unit,
    Bool.not_eq_false] at h
  obtain ⟨e, he, n, hn, hhash, enabled, -, h⟩ := h
  split at h
  · cases h
    exact .same
  · split at h
    · cases h
      exact .same
    · rename_i hroom
      split at h
      · cases h
        exact .same
      · rename_i hseq
        simp only [Bool.or_eq_true, decide_eq_true_eq, not_or, not_le] at hroom hseq
        simp only [bind_eq_ok, Prod.exists, insertUser_ok, pure_eq_ok, Prod.mk.injEq] at h
        obtain ⟨id, db₁, ⟨hfresh, -, rfl⟩, -, rfl⟩ := h
        exact .created ⟨_, he⟩ ⟨_, hn⟩ hhash hroom.1 hseq hfresh

theorem updateUserAndRevoke_ok {userId : Int} {update : UserRow → UserRow} :
    db.updateUserAndRevoke userId now update = .ok db' ↔
      db.hasUser userId = true ∧
        db' = (db.updateUser userId fun u => { update u with updatedAt := now }).revokeSessionsOf
          userId now := by
  simp only [Database.updateUserAndRevoke, bind_eq_ok, rejectIf_eq_ok, exists_unit, pure_eq_ok,
    Bool.not_eq_false]
  exact and_congr_right fun _ => eq_comm

/-- What a committed operation `set_user_*` has done. -/
def Changes (phc : PhcParser) (db : Database) (userId now : Int) (db' : Database) : Prop :=
  ∃ change : UserChange, db.hasUser userId = true ∧ change.Accepted phc db userId ∧
    db' = db.changeUser userId now change

theorem setUserPassword_ok {userId : Int} {passwordHash : String}
    (h : db.setUserPassword phc userId passwordHash now = .ok db') :
    Changes phc db userId now db' := by
  simp only [Database.setUserPassword, bind_eq_ok, rejectIf_eq_ok, exists_unit,
    updateUserAndRevoke_ok, Bool.not_eq_false] at h
  obtain ⟨hhash, huser, rfl⟩ := h
  have hchange : (UserChange.password passwordHash).Accepted phc db userId := hhash
  exact ⟨_, huser, hchange, rfl⟩

theorem setUserEmail_ok {userId : Int} {value : String}
    (h : db.setUserEmail userId value now = .ok db') :
    Changes phc db userId now db' := by
  simp only [Database.setUserEmail, bind_eq_ok, rejectIf_eq_ok, exists_unit,
    updateUserAndRevoke_ok] at h
  obtain ⟨e, he, hunique, huser, rfl⟩ := h
  have hother : ∀ u ∈ db.users, u.id ≠ userId → u.emailCanonical ≠ e.canonical := by
    simpa [huser] using hunique
  have hchange : (UserChange.email e).Accepted phc db userId := ⟨⟨value, he⟩, hother⟩
  exact ⟨_, huser, hchange, rfl⟩

theorem setUserName_ok {userId : Int} {value : String}
    (h : db.setUserName userId value now = .ok db') :
    Changes phc db userId now db' := by
  simp only [Database.setUserName, bind_eq_ok, rejectIf_eq_ok, exists_unit, pure_eq_ok,
    Bool.not_eq_false] at h
  obtain ⟨n, hn, huser, rfl⟩ := h
  have hchange : (UserChange.name n).Accepted phc db userId := ⟨value, hn⟩
  exact ⟨_, huser, hchange, rfl⟩

theorem setUserStatus_ok {userId : Int} {status : String}
    (h : db.setUserStatus userId status now = .ok db') :
    Changes phc db userId now db' := by
  simp only [Database.setUserStatus, bind_eq_ok, orReject_eq_ok] at h
  obtain ⟨parsed, -, h⟩ := h
  have hchange : (UserChange.status parsed).Accepted phc db userId := trivial
  cases parsed with
  | active =>
    simp only [bind_eq_ok, rejectIf_eq_ok, exists_unit, pure_eq_ok, Bool.not_eq_false] at h
    obtain ⟨huser, rfl⟩ := h
    exact ⟨_, huser, hchange, rfl⟩
  | disabled =>
    simp only [bind_eq_ok, orReject_eq_ok, rejectIf_eq_ok, exists_unit, pure_eq_ok] at h
    obtain ⟨u, hu, -, rfl⟩ := h
    exact ⟨_, hasUser_of_user? hu, hchange, rfl⟩

theorem setUserRole_ok {userId : Int} {role : String}
    (h : db.setUserRole userId role now = .ok db') :
    Changes phc db userId now db' := by
  simp only [Database.setUserRole, bind_eq_ok, orReject_eq_ok, rejectIf_eq_ok, exists_unit,
    pure_eq_ok] at h
  obtain ⟨parsed, -, u, hu, -, rfl⟩ := h
  have hchange : (UserChange.role parsed).Accepted phc db userId := trivial
  exact ⟨_, hasUser_of_user? hu, hchange, rfl⟩

theorem setSelfRegistrationEnabled_ok {administratorId : Int} {enabled : Bool}
    (h : db.setSelfRegistrationEnabled administratorId enabled now = .ok db') :
    AccountEffect phc db now (.setSelfRegistrationEnabled administratorId enabled) db' := by
  simp only [Database.setSelfRegistrationEnabled, bind_eq_ok, rejectIf_eq_ok, exists_unit,
    pure_eq_ok, not_or, Bool.not_eq_false, List.any_eq_true, Bool.and_eq_true,
    decide_eq_true_eq] at h
  obtain ⟨⟨⟨u, hu, ⟨hid, hactive⟩, hrole⟩, -⟩, rfl⟩ := h
  refine .toggled ⟨u, hu, hid, hactive, hrole⟩ ?_
  intro row hrow
  obtain ⟨old, hold, rfl⟩ := List.mem_map.mp hrow
  split
  · exact .inr rfl
  · exact .inl hold

theorem authContextHashWithRenewal_effect (tokenHash : String) (ttlSecs : Int) :
    AccountEffect phc db now (.authContextHashWithRenewal tokenHash ttlSecs)
      (db.authContextHashWithRenewal tokenHash ttlSecs now).2 := by
  unfold Database.authContextHashWithRenewal
  split
  · split
    · exact .same
    · split
      · exact .same
      · exact .renewContext _
  · exact .same

theorem renewSessionForVault_effect (tokenHash vault : String) (ttlSecs : Int) :
    AccountEffect phc db now (.renewSessionForVault tokenHash vault ttlSecs)
      (db.renewSessionForVault tokenHash vault ttlSecs now).2 := by
  unfold Database.renewSessionForVault
  split
  · exact .same
  · split
    · exact .same
    · split
      · exact .same
      · exact .renewForVault _

/-- The operations with a target are the changes of that user. -/
theorem changes_of_execute {op : AccountOperation} {userId : Int}
    (h : op.execute phc db now = .ok db') (htarget : op.target? = some userId) :
    Changes phc db userId now db' := by
  cases op with
  | setUserPassword id hash =>
    cases htarget
    exact setUserPassword_ok h
  | setUserEmail id value =>
    cases htarget
    exact setUserEmail_ok h
  | setUserName id value =>
    cases htarget
    exact setUserName_ok h
  | setUserStatus id status =>
    cases htarget
    exact setUserStatus_ok h
  | setUserRole id role =>
    cases htarget
    exact setUserRole_ok h
  | _ => cases htarget

theorem Changes.effect {op : AccountOperation} {userId : Int} (h : Changes phc db userId now db')
    (htarget : op.target? = some userId) : AccountEffect phc db now op db' := by
  obtain ⟨change, huser, hchange, rfl⟩ := h
  exact .changed htarget huser hchange

theorem AccountOperation.effect_of_execute {op : AccountOperation}
    (h : op.execute phc db now = .ok db') : AccountEffect phc db now op db' := by
  cases op <;>
    simp only [AccountOperation.execute, bind_eq_ok, pure_eq_ok, Prod.exists, Except.ok.injEq] at h
  case issueSessionForUser => exact .issue h
  case authContextHashWithRenewal t ttl => exact h ▸ authContextHashWithRenewal_effect t ttl
  case renewSessionForVault t v ttl => exact h ▸ renewSessionForVault_effect t v ttl
  case revokeSession => exact h ▸ .revoke _ rfl
  case revokeAllSessions => exact h ▸ .revoke _ rfl
  case revokeUserSessions =>
    simp only [Database.revokeUserSessions, bind_eq_ok, rejectIf_eq_ok, exists_unit, pure_eq_ok,
      Prod.mk.injEq] at h
    obtain ⟨_, _, ⟨-, -, rfl⟩, rfl⟩ := h
    exact .revoke _ rfl
  case createUser =>
    obtain ⟨_, _, h, rfl⟩ := h
    exact createUser_ok h _
  case createSelfRegisteredUser =>
    obtain ⟨_, _, h, rfl⟩ := h
    exact createSelfRegisteredUser_ok h _
  case setSelfRegistrationEnabled => exact setSelfRegistrationEnabled_ok h
  case setUserPassword => exact (setUserPassword_ok h).effect rfl
  case setUserEmail => exact (setUserEmail_ok h).effect rfl
  case setUserName => exact (setUserName_ok h).effect rfl
  case setUserStatus => exact (setUserStatus_ok h).effect rfl
  case setUserRole => exact (setUserRole_ok h).effect rfl

end Inversion

/-! ## What operations leave alone -/

section Frame

variable {phc : PhcParser} {db db' : Database} {now : Int}

theorem issueSessionForUser_frame {tokenHash : String} {userId ttlSecs : Int}
    (h : db.issueSessionForUser tokenHash userId ttlSecs now = .ok db') :
    db' = { db with sessions := db'.sessions } := by
  simp only [Database.issueSessionForUser, bind_eq_ok, rejectIf_eq_ok, exists_unit, pure_eq_ok] at h
  obtain ⟨-, -, -, -, rfl⟩ := h
  rfl

theorem changeUser_frame (db : Database) (userId now : Int) (change : UserChange) :
    db.changeUser userId now change =
      { db with
        users := (db.changeUser userId now change).users
        sessions := (db.changeUser userId now change).sessions } := by
  unfold Database.changeUser
  split <;> rfl

/-- Operations on accounts write users, sessions, settings and the number of the last user. -/
theorem AccountEffect.frame {op : AccountOperation} (h : AccountEffect phc db now op db') :
    db' = { db with
      sqliteSequence := db'.sqliteSequence
      users := db'.users
      sessions := db'.sessions
      serverSettings := db'.serverSettings } := by
  cases h with
  | issue hok =>
    rw [issueSessionForUser_frame hok]
  | changed _ _ _ =>
    rw [changeUser_frame]
  | same | renewContext _ | renewForVault _ | revoke _ _ | created _ _ _ _ _ _ | toggled _ _ => rfl

end Frame

/-! ## Operations keep the schema's constraints -/

namespace Constraints

variable {db : Database}

/-- An insertion or update of users that loses no user and keeps both keys unique. -/
theorem withUsers (h : Constraints db) {users : List UserRow} {sequences : List SequenceRow}
    (hid : (users.map (·.id)).Nodup) (hemail : (users.map (·.emailCanonical)).Nodup)
    (hkept : ∀ u ∈ db.users, ∃ w ∈ users, w.id = u.id) :
    Constraints { db with users := users, sqliteSequence := sequences } := by
  have hmono : ∀ id, db.hasUser id = true →
      ({ db with users := users, sqliteSequence := sequences } : Database).hasUser id = true := by
    intro id hid
    obtain ⟨u, hu, rfl⟩ := hasUser_iff.mp hid
    exact hasUser_iff.mpr (hkept u hu)
  exact { h with
    userId := hid
    userEmail := hemail
    vaultOwner := fun v hv => hmono _ (h.vaultOwner v hv)
    revisionUser := fun r hr => hmono _ (h.revisionUser r hr)
    sessionUser := fun s hs => hmono _ (h.sessionUser s hs)
    retiredOwner := fun r hr => hmono _ (h.retiredOwner r hr)
    membershipUser := fun m hm => hmono _ (h.membershipUser m hm)
    membershipInviter := fun m hm => hmono _ (h.membershipInviter m hm) }

theorem withUser (h : Constraints db) {row : UserRow}
    (hfresh : ∀ u ∈ db.users, u.emailCanonical ≠ row.emailCanonical) :
    Constraints (db.withUser row) := by
  refine h.withUsers ?_ ?_ fun u hu => ⟨u, List.mem_append_left _ hu, rfl⟩
  · rw [List.map_append]
    refine h.userId.append (by simp) ?_
    intro id hold hnew
    have hlt : id < db.nextUserId := lt_nextRowid hold
    simp only [List.map_cons, List.map_nil, List.mem_singleton] at hnew
    omega
  · rw [List.map_append]
    refine h.userEmail.append (by simp) ?_
    intro email hold hnew
    obtain ⟨u, hu, rfl⟩ := List.mem_map.mp hold
    exact hfresh u hu (by simpa using hnew)

theorem updateUser (h : Constraints db) {userId : Int} {f : UserRow → UserRow}
    (hf : ∀ u, (f u).id = u.id)
    (hemail : ∀ u ∈ db.users, u.id ≠ userId → ∀ w ∈ db.users, w.id = userId →
      u.emailCanonical ≠ (f w).emailCanonical) : Constraints (db.updateUser userId f) := by
  refine h.withUsers ?_ ?_ ?_
  · have hids : (fun u : UserRow => (if u.id = userId then f u else u).id) = (·.id) := by
      funext u
      split <;> simp [hf]
    simpa only [List.map_map, Function.comp_def, hids] using h.userId
  · rw [List.map_map]
    refine List.Nodup.map_on ?_ (List.Nodup.of_map _ h.userId)
    intro u hu w hw heq
    simp only [Function.comp_apply] at heq
    by_cases hu' : u.id = userId <;> by_cases hw' : w.id = userId
    · exact List.inj_on_of_nodup_map h.userId hu hw (hu'.trans hw'.symm)
    · simp only [hu', hw', if_true, if_false] at heq
      exact absurd heq.symm (hemail w hw hw' u hu hu')
    · simp only [hu', hw', if_true, if_false] at heq
      exact absurd heq (hemail u hu hu' w hw hw')
    · simp only [hu', hw', if_false] at heq
      exact List.inj_on_of_nodup_map h.userEmail hu hw heq
  · intro u hu
    refine ⟨_, List.mem_map_of_mem hu, ?_⟩
    split <;> simp [hf]

theorem changeUser (h : Constraints db) {phc : PhcParser} {userId now : Int} {change : UserChange}
    (hchange : change.Accepted phc db userId) : Constraints (db.changeUser userId now change) := by
  have hupdate : Constraints (db.updateUser userId (change.apply now)) := by
    refine h.updateUser (change.apply_id now) ?_
    intro u hu hne w hw hid
    cases change with
    | email e => exact hchange.2 u hu hne
    | password _ | name _ | status _ | role _ =>
      intro heq
      exact hne ((congrArg _ (List.inj_on_of_nodup_map h.userEmail hu hw heq)).trans hid)
  unfold Database.changeUser
  split
  · exact hupdate.revokeSessions _ _
  · exact hupdate

end Constraints

theorem AccountEffect.constraints {phc : PhcParser} {db db' : Database} {now : Int}
    {op : AccountOperation} (h : AccountEffect phc db now op db') (hc : Constraints db) :
    Constraints db' := by
  cases h with
  | same => exact hc
  | issue h => exact hc.issueSessionForUser h
  | renewContext p => exact hc.renewSession _ _ _ p
  | renewForVault p => exact hc.renewSession _ _ _ p
  | revoke p _ => exact hc.revokeSessions _ p
  | created _ _ _ _ _ hfresh => exact hc.withUser hfresh
  | changed _ _ hchange => exact hc.changeUser hchange
  | toggled _ _ => exact { hc with }

/-! ## Runs -/

/-- One operation on a stored database at a reading of the clock: it commits, or it fails
and nothing has happened. -/
inductive Store.Account (phc : PhcParser) (s : Store) : AccountOperation × Int → Store → Prop where
  | commit {op now s'} : op.execute phc s.db now = .ok s'.db → Store.Account phc s (op, now) s'
  | rollback {op now error} :
      op.execute phc s.db now = .error error → Store.Account phc s (op, now) s

/-- The state after an operation. -/
def Store.account (phc : PhcParser) (s : Store) (op : AccountOperation) (now : Int) : Store :=
  match h : op.execute phc s.db now with
  | .ok db => ⟨db, (AccountOperation.effect_of_execute h).constraints s.constraints⟩
  | .error _ => s

theorem Store.account_step (phc : PhcParser) (s : Store) (op : AccountOperation) (now : Int) :
    s.Account phc (op, now) (s.account phc op now) := by
  unfold Store.account
  split
  · rename_i h
    exact .commit h
  · rename_i h
    exact .rollback h

theorem Store.Account.effect {phc : PhcParser} {s s' : Store} {op : AccountOperation} {now : Int}
    (h : s.Account phc (op, now) s') : AccountEffect phc s.db now op s'.db := by
  cases h with
  | commit h => exact AccountOperation.effect_of_execute h
  | rollback _ => exact .same

/-! ## The session table -/

/-- The row a successful issue appends. -/
def issuedSession (tokenHash : String) (userId ttlSecs now : Int) : SessionRow :=
  { tokenHash := tokenHash, userId := userId, createdAt := now, expiresAt := now + ttlSecs * 1000,
    revokedAt := none }

/-- What an operation can do to the session table. -/
inductive SessionChange (db : Database) (now : Int) :
    AccountOperation → List SessionRow → Prop where
  | keep {op} : SessionChange db now op db.sessions
  | issue {tokenHash userId ttlSecs} :
      ((db.sessions.filter (·.live now)).length : Int) < maxSessions →
      db.activeUser userId = true →
      (((db.sessions.filter (·.live now)).filter fun s => s.userId = userId).length : Int) <
        maxSessionsPerUser →
      SessionChange db now (.issueSessionForUser tokenHash userId ttlSecs)
        (db.sessions.filter (·.live now) ++ [issuedSession tokenHash userId ttlSecs now])
  | renewContext {tokenHash ttlSecs} (authorized : SessionRow → Bool) :
      SessionChange db now (.authContextHashWithRenewal tokenHash ttlSecs)
        (db.renewSession tokenHash ttlSecs now authorized).sessions
  | renewForVault {tokenHash vault ttlSecs} (authorized : SessionRow → Bool) :
      SessionChange db now (.renewSessionForVault tokenHash vault ttlSecs)
        (db.renewSession tokenHash ttlSecs now authorized).sessions
  | revoke {op : AccountOperation} (p : SessionRow → Bool) :
      op.issues? = none → SessionChange db now op (db.revokeSessions now p).sessions

/-- The rows that an issue keeps are those live at its reading. -/
theorem filter_live (sessions : List SessionRow) (now : Int) :
    (sessions.filter fun s => !(s.expiresAt ≤ now || s.revokedAt.isSome)) =
      sessions.filter (·.live now) := by
  refine List.filter_congr fun s _ => ?_
  cases h : s.revokedAt with
  | none =>
    by_cases hexp : s.expiresAt ≤ now
    · simp [SessionRow.live, h, hexp]
    · simp [SessionRow.live, h, hexp, not_le.mp hexp]
  | some _ => simp [SessionRow.live, h]

theorem issueSessionForUser_ok {db db' : Database} {tokenHash : String} {userId ttlSecs now : Int}
    (h : db.issueSessionForUser tokenHash userId ttlSecs now = .ok db') :
    SessionChange db now (.issueSessionForUser tokenHash userId ttlSecs) db'.sessions ∧
      db'.users = db.users := by
  simp only [Database.issueSessionForUser, bind_eq_ok, rejectIf_eq_ok, exists_unit, pure_eq_ok,
    filter_live, not_le, Bool.not_eq_false] at h
  obtain ⟨hcount, huser, hper, -, rfl⟩ := h
  refine ⟨.issue hcount huser ?_, rfl⟩
  rw [List.filter_filter] at hper ⊢
  refine lt_of_eq_of_lt ?_ hper
  congr 2
  refine List.filter_congr fun s _ => ?_
  cases s.live now <;> simp

theorem AccountEffect.sessionChange {phc : PhcParser} {db db' : Database} {now : Int}
    {op : AccountOperation} (h : AccountEffect phc db now op db') :
    SessionChange db now op db'.sessions := by
  cases h with
  | same => exact .keep
  | issue h => exact (issueSessionForUser_ok h).1
  | renewContext p => exact .renewContext p
  | renewForVault p => exact .renewForVault p
  | revoke p hop => exact .revoke p hop
  | created _ _ _ _ _ _ => exact .keep
  | @changed op userId change htarget _ _ =>
    unfold Database.changeUser
    split
    · exact .revoke (fun s => s.userId = userId && s.revokedAt.isNone)
        (AccountOperation.issues?_of_target? htarget)
    · exact .keep
  | toggled _ _ => exact .keep

end Blackglass
