import Blackglass.Auth
import Blackglass.Session

/-!
# Users

The operations of `db.rs` on accounts: creation by the administrator and by registration,
and the changes an offline command can make.  Every change of a user but that of the name
revokes the user's sessions in the same transaction; enabling an account does not.
-/

namespace Blackglass

open Rows Outcome

/-- The words of the `status` column. -/
def UserStatus.parse : String → Option UserStatus
  | "active" => some .active
  | "disabled" => some .disabled
  | _ => none

/-- The words of the `role` column. -/
def UserRole.parse : String → Option UserRole
  | "admin" => some .admin
  | "user" => some .user
  | _ => none

inductive RegistrationResult where
  | created (id : Int)
  | disabled
  | unavailable
deriving DecidableEq

/-- The row that `create_user` and `create_self_registered_user` insert. -/
def CanonicalEmail.toRow (email : CanonicalEmail) (name passwordHash : String) (now : Int) :
    UserRow :=
  { id := 0, emailCanonical := email.canonical, email := email.display, name := name,
    passwordHash := passwordHash, status := .active, createdAt := now, updatedAt := now,
    role := .user }

namespace Database

/-! ## Statements -/

def nextUserId (db : Database) : Int := nextRowid (db.sequence "users") (db.users.map (·.id))

@[simps]
def withUser (db : Database) (row : UserRow) : Database :=
  { db with
    users := db.users ++ [{ row with id := db.nextUserId }]
    sqliteSequence := setSequence db.sqliteSequence "users" db.nextUserId }

/-- `INSERT INTO users(..)` without an `id`. -/
def insertUser (db : Database) (row : UserRow) : Except DbError (Int × Database) := do
  rejectIf (db.users.any fun u => u.emailCanonical = row.emailCanonical) .constraint
  return (db.nextUserId, db.withUser row)

@[simps]
def mapUsers (db : Database) (f : UserRow → UserRow) : Database :=
  { db with users := db.users.map f }

/-- `UPDATE users SET .. WHERE id=?`. -/
def updateUser (db : Database) (userId : Int) (f : UserRow → UserRow) : Database :=
  db.mapUsers fun u => if u.id = userId then f u else u

def user? (db : Database) (id : Int) : Option UserRow := db.users.find? fun u => u.id = id

/-- `SELECT COUNT(*) FROM users WHERE role='admin' AND status='active'`. -/
def activeAdmins (db : Database) : Nat :=
  (db.users.filter fun u => u.role = .admin && u.status = .active).length

/-! ## Creation -/

def createUser (phc : PhcParser) (db : Database) (email name passwordHash : String) (now : Int) :
    Except DbError (Int × Database) := do
  let email ← canonicalizeEmail email
  let name ← normalizeDisplayName name
  rejectIf (passwordHashIsProductionGrade phc passwordHash = false)
    (.bail "password hash does not meet the production Argon2 policy")
  rejectIf (maxUsers ≤ db.users.length) (.bail "user limit reached")
  rejectIf (maxJsSafeInteger ≤ (db.sequence "users").getD 0) (.bail "user ID sequence exhausted")
  db.insertUser (email.toRow name passwordHash now)

/-- `SELECT self_registration_enabled=1 FROM server_settings WHERE id=1`. -/
def selfRegistrationEnabled (db : Database) : Except DbError Bool := do
  let row ← orReject (db.serverSettings.find? fun row => row.id = 1) .queryReturnedNoRows
  return row.selfRegistrationEnabled

def createSelfRegisteredUser (phc : PhcParser) (db : Database) (email name passwordHash : String)
    (now : Int) : Except DbError (RegistrationResult × Database) := do
  let email ← canonicalizeEmail email
  let name ← normalizeDisplayName name
  rejectIf (passwordHashIsProductionGrade phc passwordHash = false)
    (.bail "password hash does not meet the production Argon2 policy")
  let enabled ← db.selfRegistrationEnabled
  if enabled = false then return (.disabled, db)
  else if maxUsers ≤ db.users.length ||
      db.users.any fun u => u.emailCanonical = email.canonical then
    return (.unavailable, db)
  else if maxJsSafeInteger ≤ (db.sequence "users").getD 0 then return (.unavailable, db)
  else
    let (id, db) ← db.insertUser (email.toRow name passwordHash now)
    return (.created id, db)

def setSelfRegistrationEnabled (db : Database) (administratorId : Int) (enabled : Bool)
    (now : Int) : Except DbError Database := do
  let administrator := db.users.any fun u =>
    u.id = administratorId && u.status = .active && u.role = .admin
  rejectIf (administrator = false ∨ (db.serverSettings.filter fun row => row.id = 1).length ≠ 1)
    (.bail "administrator authorization changed")
  return { db with serverSettings := db.serverSettings.map fun row =>
    if row.id = 1 then
      { row with
        selfRegistrationEnabled := enabled, updatedAt := now, updatedBy := administratorId }
    else row }

/-! ## Changes -/

/-- `update_user_and_revoke`: an update that no key of another row stands against. -/
def updateUserAndRevoke (db : Database) (userId now : Int) (update : UserRow → UserRow) :
    Except DbError Database := do
  rejectIf (db.hasUser userId = false) (.bail "user not found")
  return (db.updateUser userId fun u => { update u with updatedAt := now }).revokeSessionsOf
    userId now

def setUserPassword (phc : PhcParser) (db : Database) (userId : Int) (passwordHash : String)
    (now : Int) : Except DbError Database := do
  rejectIf (passwordHashIsProductionGrade phc passwordHash = false)
    (.bail "password hash does not meet the production Argon2 policy")
  db.updateUserAndRevoke userId now fun u => { u with passwordHash := passwordHash }

def setUserEmail (db : Database) (userId : Int) (value : String) (now : Int) :
    Except DbError Database := do
  let email ← canonicalizeEmail value
  rejectIf (db.hasUser userId && db.users.any fun u =>
    u.id ≠ userId && u.emailCanonical = email.canonical) .constraint
  db.updateUserAndRevoke userId now fun u =>
    { u with emailCanonical := email.canonical, email := email.display }

def setUserName (db : Database) (userId : Int) (value : String) (now : Int) :
    Except DbError Database := do
  let name ← normalizeDisplayName value
  rejectIf (db.hasUser userId = false) (.bail "user not found")
  return db.updateUser userId fun u => { u with name := name, updatedAt := now }

def setUserStatus (db : Database) (userId : Int) (status : String) (now : Int) :
    Except DbError Database := do
  let status ← orReject (UserStatus.parse status) (.bail "user status must be active or disabled")
  match status with
  | .disabled =>
    let user ← orReject (db.user? userId) (.bail "user not found")
    rejectIf (user.role = .admin ∧ db.activeAdmins ≤ 1)
      (.bail "cannot disable the last active administrator")
    return (db.updateUser userId fun u =>
      { u with status := .disabled, updatedAt := now }).revokeSessionsOf userId now
  | .active =>
    rejectIf (db.hasUser userId = false) (.bail "user not found")
    return db.updateUser userId fun u => { u with status := .active, updatedAt := now }

def setUserRole (db : Database) (userId : Int) (role : String) (now : Int) :
    Except DbError Database := do
  let role ← orReject (UserRole.parse role) (.bail "user role must be admin or user")
  let user ← orReject (db.user? userId) (.bail "user not found")
  rejectIf (user.role = .admin ∧ role = .user ∧ user.status = .active ∧ db.activeAdmins ≤ 1)
    (.bail "cannot demote the last active administrator")
  return (db.updateUser userId fun u => { u with role := role, updatedAt := now }).revokeSessionsOf
    userId now

/-- The answer is the number of sessions that were not revoked yet. -/
def revokeUserSessions (db : Database) (userId now : Int) : Except DbError (Nat × Database) := do
  rejectIf (db.hasUser userId = false) (.bail "user not found")
  return ((db.sessions.filter fun s => s.userId = userId && s.revokedAt.isNone).length,
    db.revokeSessionsOf userId now)

end Database

end Blackglass
