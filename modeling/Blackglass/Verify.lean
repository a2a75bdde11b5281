import Blackglass.Auth
import Blackglass.MembershipBounds
import Blackglass.Notice
import Blackglass.Revisions

/-!
# The verifier

`verify_logical_invariants` and what `verify_schema_at_version` runs around it: the checks
that decide whether a database file may be opened, backed up, restored or migrated.  Each
is a sequence of queries for rows that must not exist; `LogicalInvariants` says the same as
a list of facts, and `verifyLogicalInvariants_ok` that the two agree.

The columns of a row have their types here, so the `typeof` half of each check has nothing
to say; a database that fails one is not accepted in any case.  The comparison of the schema
objects with the expected ones is that of the set of tables, which decides all the others:
every table of a version is created by one constant statement.
-/

namespace Blackglass

open Rows Outcome Text

/-- `x BETWEEN lo AND hi`. -/
def between (lo hi x : Int) : Prop := lo ≤ x ∧ x ≤ hi

instance (lo hi x : Int) : Decidable (between lo hi x) := by
  unfold between
  infer_instance

/-- A value that is an integer the clients can represent. -/
def safeFrom (lo x : Int) : Prop := between lo maxJsSafeInteger x

instance (lo x : Int) : Decidable (safeFrom lo x) := by
  unfold safeFrom
  infer_instance

/-! ## Rows -/

def UserRow.Valid (u : UserRow) : Prop :=
  safeFrom 1 u.id ∧
    between 3 maxEmailBytes (sqlLength u.emailCanonical) ∧
    globOutside isAsciiGraphic u.emailCanonical = false ∧
    sqlLength u.emailCanonical - sqlLength (sqlWithout '@' u.emailCanonical) = 1 ∧
    sqlInstr '@' u.emailCanonical ≠ 1 ∧
    sqlInstr '@' u.emailCanonical ≠ sqlLength u.emailCanonical ∧
    u.emailCanonical = toAsciiLowercase u.emailCanonical ∧
    between 3 maxEmailBytes (sqlLength u.email) ∧
    globOutside isAsciiGraphic u.email = false ∧
    toAsciiLowercase u.email = u.emailCanonical ∧
    between 1 maxDisplayNameBytes (sqlByteLength u.name) ∧
    between 1 512 (sqlLength u.passwordHash) ∧
    safeFrom 0 u.createdAt ∧
    safeFrom u.createdAt u.updatedAt

instance (u : UserRow) : Decidable u.Valid := by
  unfold UserRow.Valid
  infer_instance

/-- The owner column exists, and is checked, from version 5. -/
def VaultRow.FieldsValid (multiUser : Bool) (v : VaultRow) : Prop :=
  between 1 64 (sqlLength v.id) ∧
    between 1 256 (sqlLength v.name) ∧
    between 1 255 (sqlLength v.host) ∧
    between 1 256 (sqlLength v.region) ∧
    between 0 3 v.encryptionVersion ∧
    safeFrom 0 v.size ∧
    safeFrom 0 v.created ∧
    safeFrom 0 v.version ∧
    (multiUser = true → safeFrom 1 v.ownerUserId)

instance (multiUser : Bool) (v : VaultRow) : Decidable (v.FieldsValid multiUser) := by
  unfold VaultRow.FieldsValid
  infer_instance

/-- A vault has either a key hash and a salt of its own, or a managed password with the
salt that goes with it and a key hash once one is bound. -/
def VaultRow.CredentialsValid (v : VaultRow) : Prop :=
  match v.password, v.keyhash, v.salt with
  | none, some keyhash, some salt =>
    between 1 4096 (sqlLength keyhash) ∧ between 1 4096 (sqlLength salt)
  | some password, keyhash, some salt =>
    sqlLength password = 64 ∧ globOutside isLowerHexDigit password = false ∧
      sqlLength salt = 32 ∧ globOutside isLowerHexDigit salt = false ∧
      ∀ k ∈ keyhash, between 1 4096 (sqlLength k)
  | _, _, _ => False

instance (v : VaultRow) : Decidable v.CredentialsValid := by
  unfold VaultRow.CredentialsValid
  split <;> infer_instance

/-- The text columns of a revision. -/
def RevisionRow.TextValid (r : RevisionRow) : Prop :=
  between 1 16384 (sqlLength r.path) ∧
    (∀ p ∈ r.relatedpath, sqlLength p ≤ 16384) ∧
    sqlLength r.extension ≤ 256 ∧
    sqlLength r.hash ≤ 4096 ∧
    between 1 256 (sqlLength r.device)

instance (r : RevisionRow) : Decidable r.TextValid := by
  unfold RevisionRow.TextValid
  infer_instance

def RevisionRow.MetadataValid (multiUser : Bool) (r : RevisionRow) : Prop :=
  safeFrom 1 r.uid ∧
    between 1 64 (sqlLength r.vaultId) ∧
    r.TextValid ∧
    safeFrom 0 r.ctime ∧
    safeFrom 0 r.mtime ∧
    safeFrom 0 r.size ∧
    0 ≤ r.pieces ∧
    (r.pieces = if r.size = 0 then 0 else (r.size + (revisionPieceSize - 1)) / revisionPieceSize) ∧
    (r.folder = true ∨ r.deleted = true → r.size = 0 ∧ r.pieces = 0) ∧
    (if multiUser then safeFrom 1 r.userId else r.userId = 1) ∧
    safeFrom 0 r.ts

instance (multiUser : Bool) (r : RevisionRow) : Decidable (r.MetadataValid multiUser) := by
  unfold RevisionRow.MetadataValid
  infer_instance

/-- A revision's bytes are in one place and as many as it says; before version 2 that
place is the row itself. -/
def RevisionRow.ContentValid (db : Database) (externalContent : Bool) (r : RevisionRow) : Prop :=
  if externalContent then
    let external := db.revisionContent.find? fun c => c.uid = r.uid
    (r.size = 0 → r.content = none ∧ external = none) ∧
      (0 < r.size → r.content.isSome = !external.isSome) ∧
      (∀ bytes ∈ r.content, (bytes.length : Int) = r.size) ∧
      (∀ c ∈ external, (c.content.length : Int) = r.size)
  else
    (r.size = 0 → r.content = none) ∧
      (0 < r.size → ∃ bytes ∈ r.content, (bytes.length : Int) = r.size)

instance (db : Database) (externalContent : Bool) (r : RevisionRow) :
    Decidable (r.ContentValid db externalContent) := by
  unfold RevisionRow.ContentValid
  infer_instance

/-- `name NOT IN (..)` is not true of a `NULL` name. -/
def SequenceRow.Valid (allowed : List String) (row : SequenceRow) : Prop :=
  (∀ name ∈ row.name, name ∈ allowed) ∧ safeFrom 0 row.seq

instance (allowed : List String) (row : SequenceRow) : Decidable (row.Valid allowed) := by
  unfold SequenceRow.Valid
  infer_instance

def SessionRow.Valid (multiUser : Bool) (s : SessionRow) : Prop :=
  (multiUser = true → safeFrom 1 s.userId) ∧
    sqlLength s.tokenHash = 64 ∧
    globOutside isLowerHexDigit s.tokenHash = false ∧
    safeFrom 0 s.createdAt ∧
    safeFrom 1 s.expiresAt ∧
    s.createdAt < s.expiresAt ∧
    ∀ revokedAt ∈ s.revokedAt, safeFrom s.createdAt revokedAt

instance (multiUser : Bool) (s : SessionRow) : Decidable (s.Valid multiUser) := by
  unfold SessionRow.Valid
  infer_instance

def RetiredVaultRow.Valid (multiUser : Bool) (r : RetiredVaultRow) : Prop :=
  (multiUser = true → safeFrom 1 r.ownerUserId) ∧
    between 1 64 (sqlLength r.id) ∧
    safeFrom 0 r.retiredAt

instance (multiUser : Bool) (r : RetiredVaultRow) : Decidable (r.Valid multiUser) := by
  unfold RetiredVaultRow.Valid
  infer_instance

namespace Database

/-! ## Queries of the verifier -/

/-- The sizes of the live file heads of a vault. -/
def liveSize (db : Database) (id : String) : Int :=
  sumOf (·.size) (db.revisions.filter fun r =>
    r.vaultId = id && r.uid ∈ db.headUids id && !r.deleted && !r.folder)

def sequenceRows (db : Database) (name : String) : Nat :=
  (db.sqliteSequence.filter fun row => row.name = some name).length

/-- `MAX(r.uid)` of a vault's revisions, or zero. -/
def maxUidOf (db : Database) (id : String) : Int :=
  maxOr0 ((db.revisions.filter fun r => r.vaultId = id).map (·.uid))

def allowedSequences (db : Database) (multiUser : Bool) : List String :=
  if .memberships ∈ db.tables then ["revisions", "users", "memberships"]
  else if multiUser then ["revisions", "users"]
  else ["revisions"]

/-- `revoked_at IS NULL AND expires_at > now`, of one user. -/
def liveSessionsOf (db : Database) (userId now : Int) : List SessionRow :=
  db.sessions.filter fun s => s.userId = userId && s.live now

def retiredVaultsOf (db : Database) (ownerUserId : Int) : List RetiredVaultRow :=
  db.retiredVaults.filter fun r => r.ownerUserId = ownerUserId

/-- `reject_invalid_row`: `rows` are the identities the query returns. -/
def rejectInvalidRow (rows : List String) (invariant : String) : Except DbError Unit :=
  match rows with
  | [] => .ok ()
  | identity :: _ =>
    .error (.bail ("database logical invariant failed (" ++ invariant ++ "): " ++ identity))

/-- `SELECT CAST(COUNT(*) AS TEXT) FROM .. HAVING COUNT(*) > ..`. -/
def overLimit (count : Nat) (limit : Int) : List String :=
  if limit < count then [toString count] else []

/-- `verify_logical_invariants`, on a connection that reads the clock as `now`. -/
def verifyLogicalInvariants (phc : PhcParser) (db : Database) (externalContent multiUser : Bool)
    (now : Int) : Except DbError Unit := do
  onlyIf (multiUser = true) do
    rejectInvalidRow ((db.users.filter fun u => ¬u.Valid).map fun u => toString u.id)
      "user field types and ranges"
    rejectInvalidRow (overLimit db.users.length maxUsers) "user count limit"
    let hashes := (db.users.insertionSort fun a b => a.id ≤ b.id).take maxUsers.toNat
    rejectIf (hashes.any fun u => !passwordHashIsProductionGrade phc u.passwordHash)
      (.bail "database logical invariant failed (user password hash policy)")
  rejectInvalidRow ((db.vaults.filter fun v => ¬v.FieldsValid multiUser).map (·.id))
    "vault field types and ranges"
  rejectInvalidRow ((db.vaults.filter fun v => ¬v.CredentialsValid).map (·.id))
    "vault encryption credential shape"
  rejectInvalidRow (overLimit db.vaults.length maxVaults) "vault count limit"
  rejectInvalidRow
    ((db.revisions.filter fun r => ¬r.MetadataValid multiUser).map fun r => toString r.uid)
    "revision metadata"
  rejectIf (db.revisions.any fun r => maxEventBytes < r.toRevision.toNotice.text.utf8ByteSize)
    (.bail "revision notice exceeds the bounded wire size")
  rejectInvalidRow
    ((db.revisions.filter fun r => ¬r.ContentValid db externalContent).map fun r => toString r.uid)
    (if externalContent then "revision content location and byte length"
      else "legacy revision content and byte length")
  rejectInvalidRow
    ((db.sqliteSequence.filter fun row => ¬row.Valid (db.allowedSequences multiUser)).map
      fun row => row.name.getD "")
    "AUTOINCREMENT sequence"
  rejectInvalidRow (if 1 < db.sequenceRows "revisions" then ["revisions"] else [])
    "revision sequence uniqueness"
  onlyIf (multiUser = true) do
    rejectInvalidRow (if db.sequenceRows "users" ≠ 1 then ["users"] else [])
      "user sequence uniqueness"
    rejectInvalidRow
      (if (db.sequence "users").any fun seq => seq < maxOr0 (db.users.map (·.id)) then ["users"]
        else [])
      "user sequence high-water mark"
  rejectInvalidRow
    ((db.vaults.filter fun v =>
      v.version < db.maxUidOf v.id || (db.sequence "revisions").getD 0 < v.version).map (·.id))
    "vault version is a valid revision high-water mark"
  rejectInvalidRow ((db.vaults.filter fun v => v.size ≠ db.liveSize v.id).map (·.id))
    "vault size equals current live file heads"
  onlyIf (.schemaMigrations ∈ db.tables) do
    rejectInvalidRow
      ((db.schemaMigrations.filter fun m => ¬safeFrom 0 m.appliedAt).map
        fun m => toString m.version)
      "migration metadata"
  onlyIf (.sessions ∈ db.tables) do
    rejectInvalidRow ((db.sessions.filter fun s => ¬s.Valid multiUser).map (·.tokenHash))
      "session token and timestamps"
    rejectInvalidRow (overLimit db.sessions.length maxSessions) "session count limit"
    onlyIf (multiUser = true) do
      rejectInvalidRow
        ((db.sessions.filter fun s => s.live now &&
          maxSessionsPerUser < (db.liveSessionsOf s.userId now).length).map
            fun s => toString s.userId)
        "active session count per user"
  onlyIf (.retiredVaults ∈ db.tables) do
    rejectInvalidRow ((db.retiredVaults.filter fun r => ¬r.Valid multiUser).map (·.id))
      "retired vault marker fields"
    onlyIf (multiUser = true) do
      rejectInvalidRow
        ((db.retiredVaults.filter fun r =>
          maxRetiredVaultsPerOwner < (db.retiredVaultsOf r.ownerUserId).length).map
            fun r => toString r.ownerUserId)
        "retired vault marker count per owner"
    rejectInvalidRow (overLimit db.retiredVaults.length maxRetiredVaults)
      "retired vault marker count"
    rejectInvalidRow ((db.retiredVaults.filter fun r => db.hasVault r.id).map (·.id))
      "active and retired vault identities are disjoint"

/-- `verify_v7_invariants`; a role is one of the two words by its type. -/
def verifyV7Invariants (db : Database) : Except DbError Unit := do
  rejectIf ((db.users.filter fun u => u.role = .admin).length < 1)
    (.bail "database must retain at least one administrator")
  rejectIf
    ((db.serverSettings.filter fun row => row.id = 1 && safeFrom 0 row.updatedAt).length ≠ 1)
    (.bail "server settings singleton invariant violation")

/-! ## Schema versions -/

/-- The tables of a recorded schema version. -/
def tablesAt (version : Int) : List Table :=
  [.schemaMigrations, .sqliteSequence, .vaults, .revisions] ++
    (if 2 ≤ version then [.revisionContent, .sessions] else []) ++
    (if 4 ≤ version then [.retiredVaults] else []) ++
    (if 5 ≤ version then [.users] else []) ++
    (if 6 ≤ version then [.memberships] else []) ++
    (if 7 ≤ version then [.serverSettings] else [])

/-- The comparison of `sqlite_schema` with the objects of a version. -/
def verifySchema (db : Database) (version : Int) : Except DbError Unit :=
  rejectIf (∃ table ∈ Table.all, ¬(table ∈ db.tables ↔ table ∈ tablesAt version))
    (.bail "unexpected Blackglass schema objects")

/-- What `PRAGMA foreign_key_check` looks for: the references that the version's tables
declare. -/
def ForeignKeys (db : Database) (version : Int) : Prop :=
  (∀ r ∈ db.revisions, db.hasVault r.vaultId) ∧
    (2 ≤ version → ∀ c ∈ db.revisionContent, db.revisions.any fun r => r.uid = c.uid) ∧
    (5 ≤ version →
      (∀ v ∈ db.vaults, db.hasUser v.ownerUserId) ∧ (∀ r ∈ db.revisions, db.hasUser r.userId) ∧
        (∀ s ∈ db.sessions, db.hasUser s.userId) ∧
        ∀ r ∈ db.retiredVaults, db.hasUser r.ownerUserId) ∧
    (6 ≤ version → ∀ m ∈ db.memberships,
      db.hasVault m.vaultId ∧ db.hasUser m.userId ∧ db.hasUser m.invitedByUserId) ∧
    (7 ≤ version → ∀ row ∈ db.serverSettings, db.hasUser row.updatedBy)

instance (db : Database) (version : Int) : Decidable (db.ForeignKeys version) := by
  unfold ForeignKeys
  infer_instance

def verifyForeignKeys (db : Database) (version : Int) : Except DbError Unit :=
  rejectIf (¬db.ForeignKeys version) (.bail "SQLite foreign_key_check failed")

/-- `verify_schema_at_version`. -/
def verifySchemaAtVersion (phc : PhcParser) (db : Database) (version now : Int) :
    Except DbError Unit := do
  rejectIf (¬(1 ≤ version ∧ version ≤ currentSchemaVersion))
    (.bail ("no validator for database schema version " ++ toString version))
  db.verifySchema version
  db.verifyForeignKeys version
  verifyLogicalInvariants phc db (2 ≤ version) (5 ≤ version) now
  onlyIf (6 ≤ version) db.verifyMembershipInvariants
  onlyIf (7 ≤ version) db.verifyV7Invariants

def supportedMigrations : List Int := [1, 2, 3, 4, 5, 6, 7]

/-- `SELECT version FROM schema_migrations ORDER BY version`. -/
def migrationVersions (db : Database) : List Int :=
  (db.schemaMigrations.map (·.version)).insertionSort (· ≤ ·)

def rejectNewerMigrations (versions : List Int) : Except DbError Unit :=
  match versions.find? fun version => currentSchemaVersion < version with
  | none => .ok ()
  | some version => .error (.bail ("database schema version " ++ toString version ++
      " is newer than this server supports (" ++ toString currentSchemaVersion ++ ")"))

/-- `verify_recorded_schema`: the recorded version, if everything it promises holds. -/
def verifyRecordedSchema (phc : PhcParser) (db : Database) (now : Int) : Except DbError Int := do
  rejectIf (.schemaMigrations ∉ db.tables) (.bail "database has no Blackglass migration metadata")
  let versions := db.migrationVersions
  rejectNewerMigrations versions
  rejectIf (versions = [] ∨ ¬versions.isPrefixOf supportedMigrations)
    (.bail ("unsupported Blackglass migration history: expected a non-empty prefix of " ++
      toString supportedMigrations ++ ", found " ++ toString versions))
  let version := versions.getLastD 0
  verifySchemaAtVersion phc db version now
  return version

/-- `verify_connection`; `PRAGMA integrity_check` holds of every database SQLite wrote. -/
def verifyConnection (phc : PhcParser) (db : Database) (now : Int) : Except DbError Unit := do
  let version ← verifyRecordedSchema phc db now
  rejectIf (version ≠ currentSchemaVersion)
    (.bail ("database schema version " ++ toString version ++
      " requires offline migration to version " ++ toString currentSchemaVersion ++
      "; use `blackglass-server migrate <source> <new-database>`"))

end Database

/-! ## What an accepted database satisfies -/

/-- The facts that `verify_logical_invariants` checks. -/
structure LogicalInvariants (phc : PhcParser) (db : Database) (externalContent multiUser : Bool)
    (now : Int) : Prop where
  user : multiUser = true → ∀ u ∈ db.users, u.Valid
  userCount : multiUser = true → (db.users.length : Int) ≤ maxUsers
  passwordHash : multiUser = true →
    ∀ u ∈ db.users, passwordHashIsProductionGrade phc u.passwordHash = true
  vaultFields : ∀ v ∈ db.vaults, v.FieldsValid multiUser
  credentials : ∀ v ∈ db.vaults, v.CredentialsValid
  vaultCount : (db.vaults.length : Int) ≤ maxVaults
  revision : ∀ r ∈ db.revisions, r.MetadataValid multiUser
  notice : ∀ r ∈ db.revisions, r.toRevision.toNotice.text.utf8ByteSize ≤ maxEventBytes
  content : ∀ r ∈ db.revisions, r.ContentValid db externalContent
  sequenceRow : ∀ row ∈ db.sqliteSequence, row.Valid (db.allowedSequences multiUser)
  revisionSequence : db.sequenceRows "revisions" ≤ 1
  userSequence : multiUser = true → db.sequenceRows "users" = 1
  userHighWater : multiUser = true →
    ∀ seq ∈ db.sequence "users", maxOr0 (db.users.map (·.id)) ≤ seq
  version : ∀ v ∈ db.vaults,
    db.maxUidOf v.id ≤ v.version ∧ v.version ≤ (db.sequence "revisions").getD 0
  size : ∀ v ∈ db.vaults, v.size = db.liveSize v.id
  migration : .schemaMigrations ∈ db.tables → ∀ m ∈ db.schemaMigrations, safeFrom 0 m.appliedAt
  session : .sessions ∈ db.tables → ∀ s ∈ db.sessions, s.Valid multiUser
  sessionCount : .sessions ∈ db.tables → (db.sessions.length : Int) ≤ maxSessions
  sessionsPerUser : .sessions ∈ db.tables → multiUser = true → ∀ s ∈ db.sessions,
    s.live now = true → ((db.liveSessionsOf s.userId now).length : Int) ≤ maxSessionsPerUser
  retired : .retiredVaults ∈ db.tables → ∀ r ∈ db.retiredVaults, r.Valid multiUser
  retiredPerOwner : .retiredVaults ∈ db.tables → multiUser = true → ∀ r ∈ db.retiredVaults,
    ((db.retiredVaultsOf r.ownerUserId).length : Int) ≤ maxRetiredVaultsPerOwner
  retiredCount : .retiredVaults ∈ db.tables → (db.retiredVaults.length : Int) ≤ maxRetiredVaults
  disjoint : .retiredVaults ∈ db.tables → ∀ r ∈ db.retiredVaults, db.hasVault r.id = false

/-- The facts that `verify_v7_invariants` checks. -/
structure V7Invariants (db : Database) : Prop where
  administrator : ∃ u ∈ db.users, u.role = .admin
  settings :
    (db.serverSettings.filter fun row => row.id = 1 && safeFrom 0 row.updatedAt).length = 1

@[simp] theorem rejectInvalidRow_ok {rows : List String} {invariant : String} {u : Unit} :
    Database.rejectInvalidRow rows invariant = .ok u ↔ rows = [] := by
  cases rows <;> simp [Database.rejectInvalidRow]

@[simp] theorem overLimit_eq_nil {count : Nat} {limit : Int} :
    Database.overLimit count limit = [] ↔ (count : Int) ≤ limit := by
  simp [Database.overLimit]

/-- When there are no more users than the limit, the hashes read are all of them. -/
theorem mem_take_users {users : List UserRow} {x : UserRow} (h : (users.length : Int) ≤ maxUsers) :
    x ∈ (users.insertionSort fun a b => a.id ≤ b.id).take maxUsers.toNat ↔ x ∈ users := by
  have hperm := List.perm_insertionSort (fun a b : UserRow => a.id ≤ b.id) users
  rw [List.take_of_length_le (by rw [hperm.length_eq]; omega), hperm.mem_iff]

/-- A scalar subquery compares as false when it has no row. -/
theorem any_lt_eq_false {value : Option Int} {b : Int} :
    (value.any fun seq => seq < b) = false ↔ ∀ seq ∈ value, b ≤ seq := by
  cases value <;> simp

theorem verifyLogicalInvariants_ok {phc : PhcParser} {db : Database}
    {externalContent multiUser : Bool} {now : Int} {u : Unit} :
    Database.verifyLogicalInvariants phc db externalContent multiUser now = .ok u ↔
      LogicalInvariants phc db externalContent multiUser now := by
  simp only [Database.verifyLogicalInvariants, bind_eq_ok, exists_unit, onlyIf_eq_ok,
    rejectInvalidRow_ok, rejectIf_eq_ok, overLimit_eq_nil, List.map_eq_nil_iff,
    List.filter_eq_nil_iff, decide_not, Bool.not_eq_true', decide_eq_false_iff_not, not_not,
    ite_eq_right_iff, reduceCtorEq, imp_false, Bool.not_eq_true, List.any_eq_false,
    decide_eq_true_eq, Bool.or_eq_true, not_or, not_lt, Bool.and_eq_true, not_and]
  constructor
  · rintro ⟨husers, hfields, hcredentials, hvaults, hmeta, hnotice, hcontent, hseqRow, hrevSeq,
      husersSeq, hversion, hsize, hmigration, hsessions, hretired⟩
    exact {
      user := fun h => (husers h).1
      userCount := fun h => (husers h).2.1
      passwordHash := fun h u hu => by
        have := (husers h).2.2 u ((mem_take_users (husers h).2.1).mpr hu)
        simpa using this
      vaultFields := hfields
      credentials := hcredentials
      vaultCount := hvaults
      revision := hmeta
      notice := hnotice
      content := hcontent
      sequenceRow := hseqRow
      revisionSequence := hrevSeq
      userSequence := fun h => (husersSeq h).1
      userHighWater := fun h => any_lt_eq_false.mp (husersSeq h).2
      version := hversion
      size := hsize
      migration := hmigration
      session := fun h => (hsessions h).1
      sessionCount := fun h => (hsessions h).2.1
      sessionsPerUser := fun h => (hsessions h).2.2
      retired := fun h => (hretired h).1
      retiredPerOwner := fun h => (hretired h).2.1
      retiredCount := fun h => (hretired h).2.2.1
      disjoint := fun h => (hretired h).2.2.2 }
  · intro h
    refine ⟨fun hm => ⟨h.user hm, h.userCount hm, fun u hu => ?_⟩, h.vaultFields, h.credentials,
      h.vaultCount, h.revision, h.notice, h.content, h.sequenceRow, h.revisionSequence,
      fun hm => ⟨h.userSequence hm, any_lt_eq_false.mpr (h.userHighWater hm)⟩, h.version, h.size,
      h.migration, fun ht => ⟨h.session ht, h.sessionCount ht, h.sessionsPerUser ht⟩,
      fun ht => ⟨h.retired ht, h.retiredPerOwner ht, h.retiredCount ht, h.disjoint ht⟩⟩
    rw [h.passwordHash hm u ((mem_take_users (h.userCount hm)).mp hu)]
    decide

theorem verifyV7Invariants_ok {db : Database} {u : Unit} :
    db.verifyV7Invariants = .ok u ↔ V7Invariants db := by
  simp only [Database.verifyV7Invariants, bind_eq_ok, exists_unit, rejectIf_eq_ok, not_lt, not_not]
  constructor
  · rintro ⟨hadmin, hsettings⟩
    obtain ⟨u, hu⟩ := List.exists_mem_of_length_pos hadmin
    obtain ⟨hmem, hrole⟩ := List.mem_filter.mp hu
    exact ⟨⟨u, hmem, by simpa using hrole⟩, hsettings⟩
  · rintro ⟨⟨u, hu, hrole⟩, hsettings⟩
    refine ⟨List.length_pos_of_mem (List.mem_filter.mpr ⟨hu, ?_⟩), hsettings⟩
    simpa using hrole

theorem verifySchema_ok {db : Database} {version : Int} {u : Unit} :
    db.verifySchema version = .ok u ↔
      ∀ table, table ∈ db.tables ↔ table ∈ Database.tablesAt version := by
  have hall : ∀ table, table ∈ Table.all := by
    intro table
    cases table <;> decide
  simp only [Database.verifySchema, rejectIf_eq_ok, not_exists, not_and, not_not]
  exact ⟨fun h table => h table (hall table), fun h table _ => h table⟩

/-- What the validator of a version accepts. -/
structure VersionInvariants (phc : PhcParser) (db : Database) (version now : Int) : Prop where
  supported : 1 ≤ version ∧ version ≤ currentSchemaVersion
  tables : ∀ table, table ∈ db.tables ↔ table ∈ Database.tablesAt version
  foreignKeys : db.ForeignKeys version
  logical : LogicalInvariants phc db (2 ≤ version) (5 ≤ version) now
  membership : 6 ≤ version → db.verifyMembershipInvariants = .ok ()
  v7 : 7 ≤ version → V7Invariants db

theorem verifySchemaAtVersion_ok {phc : PhcParser} {db : Database} {version now : Int} {u : Unit} :
    Database.verifySchemaAtVersion phc db version now = .ok u ↔
      VersionInvariants phc db version now := by
  simp only [Database.verifySchemaAtVersion, bind_eq_ok, exists_unit, rejectIf_eq_ok, not_not,
    verifySchema_ok, Database.verifyForeignKeys, verifyLogicalInvariants_ok, onlyIf_eq_ok,
    verifyV7Invariants_ok]
  constructor
  · rintro ⟨hsupported, htables, hkeys, hlogical, hmembership, hv7⟩
    exact ⟨hsupported, htables, hkeys, hlogical, hmembership, hv7⟩
  · rintro ⟨hsupported, htables, hkeys, hlogical, hmembership, hv7⟩
    exact ⟨hsupported, htables, hkeys, hlogical, hmembership, hv7⟩

theorem rejectNewerMigrations_ok {versions : List Int} {u : Unit} :
    Database.rejectNewerMigrations versions = .ok u ↔ ∀ v ∈ versions, v ≤ currentSchemaVersion := by
  unfold Database.rejectNewerMigrations
  cases h : versions.find? fun version => currentSchemaVersion < version with
  | none => simpa using h
  | some version =>
    refine iff_of_false (by simp) fun hall => ?_
    have hle := hall version (List.mem_of_find?_eq_some h)
    have hlt : currentSchemaVersion < version := by simpa using List.find?_some h
    exact absurd hlt (not_lt.mpr hle)

/-- The recorded version is the last of a history that begins like the supported one. -/
theorem verifyRecordedSchema_ok {phc : PhcParser} {db : Database} {version now : Int} :
    Database.verifyRecordedSchema phc db now = .ok version ↔
      .schemaMigrations ∈ db.tables ∧ db.migrationVersions ≠ [] ∧
        db.migrationVersions <+: Database.supportedMigrations ∧
        db.migrationVersions.getLastD 0 = version ∧ VersionInvariants phc db version now := by
  simp only [Database.verifyRecordedSchema, bind_eq_ok, exists_unit, rejectIf_eq_ok, not_not,
    rejectNewerMigrations_ok, not_or, List.isPrefixOf_iff_prefix, verifySchemaAtVersion_ok,
    pure_eq_ok]
  constructor
  · rintro ⟨htable, -, ⟨hne, hstart⟩, hversion, rfl⟩
    exact ⟨htable, hne, hstart, rfl, hversion⟩
  · rintro ⟨htable, hne, hstart, rfl, hversion⟩
    refine ⟨htable, fun v hv => ?_, ⟨hne, hstart⟩, hversion, rfl⟩
    have hsupported : ∀ v ∈ Database.supportedMigrations, v ≤ currentSchemaVersion := by decide
    exact hsupported v (hstart.subset hv)

theorem verifyConnection_ok {phc : PhcParser} {db : Database} {now : Int} {u : Unit} :
    Database.verifyConnection phc db now = .ok u ↔
      Database.verifyRecordedSchema phc db now = .ok currentSchemaVersion := by
  simp only [Database.verifyConnection, bind_eq_ok, rejectIf_eq_ok, not_not]
  exact ⟨fun ⟨version, h, hversion⟩ => hversion ▸ h, fun h => ⟨_, h, rfl⟩⟩

/-- A database that the server starts on satisfies the logical invariants. -/
theorem LogicalInvariants.of_verifyConnection {phc : PhcParser} {db : Database} {now : Int}
    {u : Unit} (h : Database.verifyConnection phc db now = .ok u) :
    LogicalInvariants phc db true true now :=
  (verifyRecordedSchema_ok.mp (verifyConnection_ok.mp h)).2.2.2.2.logical

/-! ## A personal server -/

/-- A hash of 32 bytes, with the least work that is accepted. -/
def somePasswordHash : String :=
  "$argon2id$v=19$m=19456,t=2,p=1$c2FsdHNhbHRzYWx0c2FsdA$" ++
    "AAAAAAAAAAAAAAAAAAAAAAAAAAAAAAAAAAAAAAAAAAA"

/-- A parser that knows one PHC string. -/
def onePhc : PhcParser where
  parse s := if s = somePasswordHash then
      some { algorithm := "argon2id", version := some 19,
             params := [("m", some 19456), ("t", some 2), ("p", some 1)],
             salt := some "c2FsdHNhbHRzYWx0c2FsdA", hash := some 32 }
    else none
  head_of_parse {s h} hparse := by
    split at hparse
    · rename_i hs
      rw [hs]
      decide
    · cases hparse

/-- A token hash of the form the server stores. -/
def someTokenHash : String := hexEncode (List.replicate 32 0)

/-- One user with one vault of their own, signed in until time 1000. -/
def personalServer : Database :=
  { tables := Table.all
    schemaMigrations := Database.supportedMigrations.map fun version => ⟨version, 0⟩
    sqliteSequence := [⟨some "users", 1⟩]
    users := [
      { id := 1, emailCanonical := "owner@example.test", email := "owner@example.test",
        name := "Owner", passwordHash := somePasswordHash, status := .active, createdAt := 0,
        updatedAt := 0, role := .admin }]
    vaults := [
      { id := "vault", name := "Notes", keyhash := some "k", salt := some "s", host := "h",
        region := "r", encryptionVersion := 3, size := 0, created := 0, password := none,
        version := 0, ownerUserId := 1 }]
    revisions := []
    revisionContent := []
    sessions := [
      { tokenHash := someTokenHash, userId := 1, createdAt := 0, expiresAt := 1000,
        revokedAt := none }]
    retiredVaults := []
    memberships := []
    serverSettings := [
      { id := 1, selfRegistrationEnabled := false, updatedAt := 0, updatedBy := 1 }]
    runtimeStorageUsage := some 0 }

theorem constraints_personalServer : Constraints personalServer := by
  constructor <;> decide

example : Database.verifyConnection onePhc personalServer 500 = .ok () := by decide +kernel

end Blackglass
