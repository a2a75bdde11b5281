import Blackglass.Recovery
import Blackglass.RevisionStore

/-!
# Schema migrations

`migrate` of `db.rs` with its statements, and `migrate_versioned_database_under_lock`, which
copies a database of an older version and migrates the copy.  Each version is one transaction:
the statements, a row of `schema_migrations`, and the validator of the new version.

Version 5 rebuilds four tables with foreign keys switched off, and with them the sequence of the
revisions.  The tables that a version creates do not exist before it, which its caller has
verified; what the model holds for them until then is overwritten.
-/

namespace Blackglass

open Rows Outcome

/-- The clock, as the transaction of one version reads it: for `now_ms()`, for `unixepoch()*1000`
in its statements, and for the validator. -/
structure StepReadings where
  appliedAt : Int
  epochAt : Int
  verifiedAt : Int
deriving DecidableEq

/-- The row of the first user. -/
def InitialUser.toRow (user : InitialUser) (now : Int) : UserRow :=
  { id := 1, emailCanonical := user.emailCanonical, email := user.email, name := user.name,
    passwordHash := user.passwordHash, status := .active, createdAt := now, updatedAt := now,
    role := .user }

namespace Database

/-! ## The statements of each version -/

/-- `MIGRATION_1_SQL`, for new and for legacy databases. -/
def migration1 (db : Database) (epochAt : Int) : Database :=
  let db := if .schemaMigrations ∈ db.tables then db
    else { db with tables := db.tables ++ [.schemaMigrations], schemaMigrations := [] }
  let db := if .vaults ∈ db.tables then db
    else { db with tables := db.tables ++ [.vaults], vaults := [] }
  let db := if .revisions ∈ db.tables then db
    else { db with tables := db.tables ++ [.revisions], revisions := [] }
  let db := if .sqliteSequence ∈ db.tables then db
    else { db with tables := db.tables ++ [.sqliteSequence], sqliteSequence := [] }
  { db with
    revisions := db.revisions.map fun r =>
      if r.ts = 0 then { r with ts := if 0 < r.mtime then r.mtime else epochAt } else r
    vaults := db.vaults.map fun v =>
      if v.version = 0 then { v with version := db.maxUidOf v.id } else v }

def migration2 (db : Database) : Database :=
  { db with
    tables := db.tables ++ [.revisionContent, .sessions], revisionContent := [], sessions := [] }

/-- Version 3 shipped without schema objects. -/
def migration3 (db : Database) : Database := db

def migration4 (db : Database) : Database :=
  { db with tables := db.tables ++ [.retiredVaults], retiredVaults := [] }

/-- The names that the last statements of version 5 clear from `sqlite_sequence`. -/
def rebuiltSequences : List String :=
  ["users", "vaults_v5", "revisions", "revisions_v5", "sessions_v5", "retired_vaults_v5"]

/-- What the statements of version 5 come to: every row that has no owner yet gets user 1, and the
sequence of the revisions becomes the highest `uid` there is. -/
def migration5 (db : Database) (user : InitialUser) (now : Int) : Database :=
  { db with
    tables := db.tables ++ [.users]
    users := [user.toRow now]
    vaults := db.vaults.map fun v => { v with ownerUserId := 1 }
    revisions := db.revisions.map fun r => { r with userId := 1 }
    sessions := db.sessions.map fun s => { s with userId := 1 }
    retiredVaults := db.retiredVaults.map fun r => { r with ownerUserId := 1 }
    sqliteSequence :=
      (db.sqliteSequence.filter fun row => row.name.all (· ∉ rebuiltSequences)) ++
        [⟨some "users", 1⟩, ⟨some "revisions", maxOr0 (db.revisions.map (·.uid))⟩] }

/-- A database whose tables version 5 makes anew, and whether foreign keys are enforced. -/
structure Rebuild where
  db : Database
  foreignKeys : Bool
  vaultsV5 : List VaultRow
  revisionsV5 : List RevisionRow
  sessionsV5 : List SessionRow
  retiredVaultsV5 : List RetiredVaultRow

namespace Rebuild

/-- The table of the users and its first row. -/
def createUsers (s : Rebuild) (user : InitialUser) (now : Int) : Rebuild :=
  { s with
    db := { s.db with
      tables := s.db.tables ++ [.users], users := [user.toRow now]
      sqliteSequence := s.db.sqliteSequence ++ [⟨some "users", 1⟩] } }

/-- The new tables get the rows of the old ones, with an owner. -/
def insertRows (s : Rebuild) : Rebuild :=
  { s with
    vaultsV5 := s.db.vaults.map fun v => { v with ownerUserId := 1 }
    revisionsV5 := s.db.revisions.map fun r => { r with userId := 1 }
    sessionsV5 := s.db.sessions.map fun s => { s with userId := 1 }
    retiredVaultsV5 := s.db.retiredVaults.map fun r => { r with ownerUserId := 1 }
    db := { s.db with
      sqliteSequence :=
        s.db.sqliteSequence ++ [⟨some "revisions_v5", maxOr0 (s.db.revisions.map (·.uid))⟩] } }

/-- `DROP TABLE`.  It deletes the rows of the table, and where foreign keys are enforced a revision
takes its content with it. -/
def dropTables (s : Rebuild) : Rebuild :=
  { s with
    db := { s.db with
      sessions := [], revisions := [], vaults := [], retiredVaults := []
      revisionContent :=
        if s.foreignKeys then
          s.db.revisionContent.filter fun c => s.db.revisions.all fun r => r.uid ≠ c.uid
        else s.db.revisionContent
      sqliteSequence := s.db.sqliteSequence.filter fun row => row.name ≠ some "revisions" } }

/-- `ALTER TABLE .. RENAME TO`. -/
def renameTables (s : Rebuild) : Database :=
  { s.db with
    vaults := s.vaultsV5, revisions := s.revisionsV5, sessions := s.sessionsV5
    retiredVaults := s.retiredVaultsV5
    sqliteSequence := s.db.sqliteSequence.map fun row =>
      if row.name = some "revisions_v5" then { row with name := some "revisions" } else row }

end Rebuild

/-- The statements of `apply_v5_migration`, between the two pragmas. -/
def applyV5Migration (db : Database) (user : InitialUser) (now : Int) : Database :=
  let s : Rebuild := ⟨db, false, [], [], [], []⟩
  let db := (s.createUsers user now).insertRows.dropTables.renameTables
  { db with
    sqliteSequence :=
      (db.sqliteSequence.filter fun row => row.name.all (· ∉ rebuiltSequences)) ++
        [⟨some "users", 1⟩, ⟨some "revisions", maxOr0 (db.revisions.map (·.uid))⟩] }

/-- The contents of the revisions are still there, and nothing is left of the names in between. -/
theorem applyV5Migration_eq (db : Database) (user : InitialUser) (now : Int) :
    db.applyV5Migration user now = db.migration5 user now := by
  have hcleared : ∀ rows : List SequenceRow,
      ((rows.filter fun row => row.name ≠ some "revisions").map fun row =>
          if row.name = some "revisions_v5" then { row with name := some "revisions" }
          else row).filter (fun row => row.name.all (· ∉ rebuiltSequences)) =
        rows.filter fun row => row.name.all (· ∉ rebuiltSequences) := by
    intro rows
    induction rows with
    | nil => rfl
    | cons row rows ih =>
      by_cases hold : row.name = some "revisions"
      · rw [List.filter_cons_of_neg (by simp [hold]), ih,
          List.filter_cons_of_neg (by simp [hold, rebuiltSequences])]
      · rw [List.filter_cons_of_pos (by simpa using hold), List.map_cons]
        by_cases hnew : row.name = some "revisions_v5"
        · rw [if_pos hnew, List.filter_cons_of_neg (by simp [rebuiltSequences]), ih,
            List.filter_cons_of_neg (by simp [hnew, rebuiltSequences])]
        · rw [if_neg hnew, List.filter_cons, ih, List.filter_cons]
  have hsequences : (db.applyV5Migration user now).sqliteSequence =
      (db.migration5 user now).sqliteSequence := by
    simp only [applyV5Migration, Rebuild.renameTables, Rebuild.dropTables, Rebuild.insertRows,
      Rebuild.createUsers, hcleared, migration5, List.map_map]
    simp [rebuiltSequences, Function.comp_def]
  exact congrArg (fun rows => { db.migration5 user now with sqliteSequence := rows }) hsequences

def migration6 (db : Database) : Database :=
  { db with tables := db.tables ++ [.memberships], memberships := [], sessions := [] }

/-- `SELECT MIN(id) FROM users`. -/
def firstUserId (db : Database) : Option Int := (db.users.map (·.id)).min?

def migration7 (db : Database) (epochAt : Int) : Database :=
  { db with
    tables := db.tables ++ [.serverSettings]
    users := db.users.map fun u =>
      { u with role := if db.firstUserId = some u.id then .admin else .user }
    serverSettings := db.firstUserId.toList.map fun id =>
      { id := 1, selfRegistrationEnabled := false, updatedAt := epochAt, updatedBy := id }
    sessions := [] }

/-! ## Transactions -/

@[simps]
def recordMigration (db : Database) (version appliedAt : Int) : Database :=
  { db with schemaMigrations := db.schemaMigrations ++ [⟨version, appliedAt⟩] }

/-- `apply_migration`, given what the statements have made of the database. -/
def applyMigration (phc : PhcParser) (db : Database) (version : Int) (t : StepReadings) :
    Except DbError Database := do
  let db := db.recordMigration version t.appliedAt
  verifySchemaAtVersion phc db version t.verifiedAt
  return db

/-- One turn of the loop of `migrate`. -/
def migrateTo (phc : PhcParser) (initialUser : Option InitialUser) (db : Database) (version : Int)
    (t : StepReadings) : Except DbError Database :=
  if version = 5 then do
    let user ← orReject initialUser (.bail "schema v5 migration requires an initial owner")
    (db.applyV5Migration user t.appliedAt).applyMigration phc 5 t
  else if version = 6 then db.migration6.applyMigration phc 6 t
  else if version = 7 then (db.migration7 t.epochAt).applyMigration phc 7 t
  else if version = 1 then (db.migration1 t.epochAt).applyMigration phc 1 t
  else if version = 2 then db.migration2.applyMigration phc 2 t
  else if version = 3 then db.migration3.applyMigration phc 3 t
  else if version = 4 then db.migration4.applyMigration phc 4 t
  else .error (.bail ("no implementation for database migration " ++ toString version))

/-- `migrate`. -/
def migrate (phc : PhcParser) (db : Database) (initialUser : Option InitialUser)
    (clock : Int → StepReadings) : Except DbError Database := do
  let versions := if .schemaMigrations ∈ db.tables then db.migrationVersions else []
  rejectNewerMigrations versions
  rejectIf (¬versions.isPrefixOf supportedMigrations)
    (.bail ("unsupported Blackglass migration history: expected a prefix of " ++
      toString supportedMigrations ++ ", found " ++ toString versions))
  (supportedMigrations.drop versions.length).foldlM
    (fun db version => db.migrateTo phc initialUser version (clock version)) db

end Database

/-- The clock, as the command reads it. -/
structure MigrationReadings where
  sourceAt : Int
  copiedAt : Int
  steps : Int → StepReadings
  rotatedAt : Int
  verifiedAt : Int

/-- `migrate_versioned_database_under_lock`: the destination that a source leads to.  The new
identities are those that a rotation draws. -/
def Database.migrateVersionedDatabaseUnderLock (phc : PhcParser) (source : Database)
    (initialUser : Option InitialUser) (newIds : List String) (t : MigrationReadings) :
    Except DbError Database := do
  let sourceVersion ← verifyRecordedSchema phc source t.sourceAt
  rejectIf (sourceVersion = currentSchemaVersion)
    (.bail ("database is already at schema version " ++ toString currentSchemaVersion ++
      "; use `backup` for a byte-preserving copy or `restore` to establish a new recovery epoch"))
  let target := source.offline
  let _ ← verifyRecordedSchema phc target t.copiedAt
  let target ← target.migrate phc initialUser t.steps
  let target ← (if sourceVersion < 3 then do
      let (_, rotated) ← target.rotateRecoveryEpoch newIds t.rotatedAt
      return rotated
    else return target)
  verifyConnection phc target t.verifiedAt
  return target

/-! ## What a migration did -/

namespace Database

variable (user : InitialUser) (clock : Int → StepReadings)

/-- The highest `uid` that is in use. -/
def maxRevisionUid (db : Database) : Int := maxOr0 (db.revisions.map (·.uid))

/-- The version that a history records. -/
def recordedVersion (db : Database) : Int := db.migrationVersions.getLastD 0

/-- The database after the transaction of one version. -/
def upgrade (db : Database) (version : Int) (t : StepReadings) : Database :=
  (if version = 5 then db.migration5 user t.appliedAt
    else if version = 6 then db.migration6
    else if version = 7 then db.migration7 t.epochAt
    else if version = 2 then db.migration2
    else if version = 4 then db.migration4
    else db).recordMigration version t.appliedAt

/-- The database after the transactions of the `n` versions that come after `version`. -/
def upgraded (db : Database) (version : Int) : Nat → Database
  | 0 => db
  | n + 1 => (db.upgraded version n).upgrade user (version + n + 1) (clock (version + n + 1))

end Database

section

variable {db : Database} {user : InitialUser} {clock : Int → StepReadings} {version : Int}

/-- A part of the database that only one of the versions changes. -/
theorem upgraded_part {α : Type*} (part : Database → α) (change : α → α) {changedAt : Int} {n : Nat}
    (hchange : ∀ db, part (db.upgrade user changedAt (clock changedAt)) = change (part db))
    (hkeep : ∀ v, version < v → v ≤ version + n → v ≠ changedAt →
      ∀ db s, part (db.upgrade user v s) = part db) :
    part (db.upgraded user clock version n) =
      if version < changedAt ∧ changedAt ≤ version + n then change (part db) else part db := by
  induction n with
  | zero =>
    rw [if_neg (by push_cast; omega)]
    rfl
  | succ n ih =>
    have ih := ih fun v hlt hle => hkeep v hlt (by push_cast; omega)
    rw [Database.upgraded]
    push_cast
    by_cases hv : version + n + 1 = changedAt
    · rw [← hv] at hchange ih ⊢
      rw [hchange, ih, if_neg (by omega), if_pos (by omega)]
    · rw [hkeep _ (by omega) (by push_cast; omega) hv, ih]
      exact if_congr (by omega) rfl rfl

/-- The sequences that version 5 makes anew are those of two tables. -/
theorem sequence_migration5 {name : String} (hname : name ∈ Database.rebuiltSequences)
    (user : InitialUser) (now : Int) :
    (db.migration5 user now).sqliteSequence.filter (fun row => row.name = some name) =
      [⟨some "users", 1⟩, ⟨some "revisions", db.maxRevisionUid⟩].filter
        fun row : SequenceRow => row.name = some name := by
  have hcleared : (db.sqliteSequence.filter fun row =>
      row.name.all (· ∉ Database.rebuiltSequences)).filter (fun row => row.name = some name) =
        [] := by
    rw [List.filter_eq_nil_iff]
    intro row hrow heq
    have hkept := (List.mem_filter.mp hrow).2
    rw [decide_eq_true_eq.mp heq] at hkept
    simp [hname] at hkept
  show List.filter _ (_ ++ _) = _
  rw [List.filter_append, hcleared]
  rfl

theorem sequence_eq_head? (name : String) : db.sequence name =
    (db.sqliteSequence.filter fun row => row.name = some name).head?.map (·.seq) := by
  rw [Database.sequence, List.head?_filter]

theorem sequence_revisions_migration5 (user : InitialUser) (now : Int) :
    (db.migration5 user now).sequence "revisions" = some db.maxRevisionUid := by
  rw [sequence_eq_head?, sequence_migration5 (by decide)]
  rfl

theorem upgraded_add (m n : Nat) : db.upgraded user clock version (m + n) =
    (db.upgraded user clock version m).upgraded user clock (version + m) n := by
  induction n with
  | zero => rfl
  | succ n ih =>
    have hversion : version + (m + n : Nat) + 1 = version + m + n + 1 := by push_cast; omega
    rw [← Nat.add_assoc, Database.upgraded, Database.upgraded, ih, hversion]

end

section

variable {phc : PhcParser} {db db' : Database} {version now : Int} {t : StepReadings}
  {initialUser : Option InitialUser} {user : InitialUser} {clock : Int → StepReadings}

theorem applyMigration_ok : db.applyMigration phc version t = .ok db' ↔
    db' = db.recordMigration version t.appliedAt ∧
      VersionInvariants phc db' version t.verifiedAt := by
  simp only [Database.applyMigration, bind_eq_ok, verifySchemaAtVersion_ok, exists_unit, pure_eq_ok]
  constructor
  · rintro ⟨h, rfl⟩
    exact ⟨rfl, h⟩
  · rintro ⟨rfl, h⟩
    exact ⟨h, rfl⟩

/-- The transaction of a version succeeds if the validator accepts what it has made. -/
theorem migrateTo_ok (h₂ : 2 ≤ version) (h₇ : version ≤ 7)
    (huser : version = 5 → initialUser = some user) :
    db.migrateTo phc initialUser version t = .ok db' ↔
      db' = db.upgrade user version t ∧ VersionInvariants phc db' version t.verifiedAt := by
  unfold Database.migrateTo Database.upgrade
  by_cases h₅ : version = 5
  · subst h₅
    rw [if_pos rfl, if_pos rfl, huser rfl]
    simp only [bind_eq_ok, orReject_eq_ok, Option.some.injEq, exists_eq_left', applyMigration_ok,
      Database.applyV5Migration_eq]
  · rw [if_neg h₅, if_neg h₅]
    have hcases : version = 2 ∨ version = 3 ∨ version = 4 ∨ version = 6 ∨ version = 7 := by omega
    rcases hcases with rfl | rfl | rfl | rfl | rfl <;>
      simp only [Int.reduceEq, if_true, if_false] <;> exact applyMigration_ok

/-- A recorded history is the list of all versions up to the recorded one. -/
theorem migrationVersions_of_recorded (h : Database.verifyRecordedSchema phc db now = .ok version) :
    .schemaMigrations ∈ db.tables ∧ 1 ≤ version ∧ version ≤ 7 ∧
      db.migrationVersions = Database.supportedMigrations.take version.toNat := by
  obtain ⟨htable, hne, ⟨rest, hrest⟩, hlast, hversion⟩ := verifyRecordedSchema_ok.mp h
  have htake : db.migrationVersions =
      Database.supportedMigrations.take db.migrationVersions.length := by
    rw [← hrest, List.take_left]
  have hlength : db.migrationVersions.length ≤ 7 := by
    have := congrArg List.length hrest
    rw [List.length_append] at this
    have hseven : Database.supportedMigrations.length = 7 := rfl
    omega
  refine ⟨htable, hversion.supported.1, hversion.supported.2, ?_⟩
  have hpos : db.migrationVersions.length ≠ 0 := fun hzero =>
    hne (List.eq_nil_of_length_eq_zero hzero)
  rw [htake] at hlast
  generalize db.migrationVersions.length = n at *
  have hn : n = 1 ∨ n = 2 ∨ n = 3 ∨ n = 4 ∨ n = 5 ∨ n = 6 ∨ n = 7 := by omega
  rw [htake]
  rcases hn with rfl | rfl | rfl | rfl | rfl | rfl | rfl <;> cases hlast <;> rfl

/-- The versions that are still to come. -/
theorem drop_supportedMigrations (h₁ : 1 ≤ version) (h₇ : version ≤ 7) :
    Database.supportedMigrations.drop version.toNat =
      (List.range (7 - version.toNat)).map fun i : Nat => version + i + 1 := by
  have hcases : version = 1 ∨ version = 2 ∨ version = 3 ∨ version = 4 ∨ version = 5 ∨
    version = 6 ∨ version = 7 := by omega
  rcases hcases with rfl | rfl | rfl | rfl | rfl | rfl | rfl <;> decide

theorem foldlM_migrateTo (h₁ : 1 ≤ version) (huser : version < 5 → initialUser = some user)
    {n : Nat} (hn : version + n ≤ 7) :
    ((List.range n).map fun i : Nat => version + i + 1).foldlM
        (fun db v => db.migrateTo phc initialUser v (clock v)) db = .ok db' ↔
      db' = db.upgraded user clock version n ∧ ∀ m < n, VersionInvariants phc
        (db.upgraded user clock version (m + 1)) (version + m + 1)
        (clock (version + m + 1)).verifiedAt := by
  induction n generalizing db' with
  | zero =>
    simp only [List.range_zero, List.map_nil, List.foldlM_nil, pure_eq_ok, Database.upgraded,
      Nat.not_lt_zero, false_implies, implies_true, and_true]
    exact eq_comm
  | succ n ih =>
    rw [List.range_succ, List.map_append, List.foldlM_append]
    simp only [List.map_cons, List.map_nil, List.foldlM_cons, List.foldlM_nil, bind_pure]
    rw [bind_eq_ok]
    simp only [ih (by omega)]
    constructor
    · rintro ⟨_, ⟨rfl, hverified⟩, hstep⟩
      obtain ⟨rfl, hlast⟩ :=
        (migrateTo_ok (by omega) (by omega) fun h₅ => huser (by omega)).mp hstep
      refine ⟨rfl, fun m hm => ?_⟩
      rcases Nat.lt_succ_iff_lt_or_eq.mp hm with hm | rfl
      · exact hverified m hm
      · exact hlast
    · rintro ⟨rfl, hverified⟩
      refine ⟨_, ⟨rfl, fun m hm => hverified m (Nat.lt_succ_of_lt hm)⟩, ?_⟩
      exact (migrateTo_ok (by omega) (by omega) fun h₅ => huser (by omega)).mpr
        ⟨rfl, hverified n (Nat.lt_succ_self n)⟩

/-- A migration of a recorded database succeeds if every version on the way is accepted. -/
theorem migrate_ok (h : Database.verifyRecordedSchema phc db now = .ok version)
    (huser : version < 5 → initialUser = some user) :
    db.migrate phc initialUser clock = .ok db' ↔
      db' = db.upgraded user clock version (7 - version.toNat) ∧
        ∀ m < 7 - version.toNat, VersionInvariants phc
          (db.upgraded user clock version (m + 1)) (version + m + 1)
          (clock (version + m + 1)).verifiedAt := by
  obtain ⟨htable, h₁, h₇, hversions⟩ := migrationVersions_of_recorded h
  obtain ⟨-, -, hhistory, -⟩ := verifyRecordedSchema_ok.mp h
  have hsupported : ∀ v ∈ db.migrationVersions, v ≤ currentSchemaVersion := by
    have hall : ∀ v ∈ Database.supportedMigrations, v ≤ currentSchemaVersion := by decide
    exact fun v hv => hall v (hhistory.subset hv)
  have hlength : db.migrationVersions.length = version.toNat := by
    rw [hversions, List.length_take]
    have hseven : Database.supportedMigrations.length = 7 := rfl
    omega
  simp only [Database.migrate, if_pos htable, bind_eq_ok, rejectNewerMigrations_ok, rejectIf_eq_ok,
    exists_unit, not_not, List.isPrefixOf_iff_prefix]
  rw [hlength, drop_supportedMigrations h₁ h₇, foldlM_migrateTo h₁ huser (by omega)]
  exact ⟨fun h => h.2.2, fun h => ⟨hsupported, hhistory, h⟩⟩

/-- Without an owner for them, the rows of a version before 5 cannot be migrated. -/
theorem exists_initialUser_of_migrate
    (h : Database.verifyRecordedSchema phc db now = .ok version) (h₅ : version < 5)
    (hok : db.migrate phc initialUser clock = .ok db') : ∃ user, initialUser = some user := by
  obtain ⟨htable, h₁, h₇, hversions⟩ := migrationVersions_of_recorded h
  have hlength : db.migrationVersions.length = version.toNat := by
    rw [hversions, List.length_take]
    have hseven : Database.supportedMigrations.length = 7 := rfl
    omega
  simp only [Database.migrate, if_pos htable, bind_eq_ok, rejectIf_eq_ok, exists_unit] at hok
  obtain ⟨-, -, hfold⟩ := hok
  rw [hlength, drop_supportedMigrations h₁ h₇] at hfold
  have hfive : 5 ∈ (List.range (7 - version.toNat)).map fun i : Nat => version + i + 1 :=
    List.mem_map.mpr ⟨(4 - version).toNat, List.mem_range.mpr (by omega), by omega⟩
  obtain ⟨_, _, hstep⟩ := foldlM_step_of_mem hfive hfold
  simp only [Database.migrateTo, if_true, bind_eq_ok, orReject_eq_ok] at hstep
  obtain ⟨user, huser, -⟩ := hstep
  exact ⟨user, huser⟩

end

/-! ## What the command did -/

/-- What `migrate_versioned_database_under_lock` has made of a source of some version. -/
structure Migrated (phc : PhcParser) (source : Database) (initialUser : Option InitialUser)
    (newIds : List String) (t : MigrationReadings) (version : Int) (user : InitialUser)
    (migrated target : Database) : Prop where
  recorded : Database.verifyRecordedSchema phc source t.sourceAt = .ok version
  version_pos : 1 ≤ version
  version_lt : version < 7
  copied : Database.verifyRecordedSchema phc source.offline t.copiedAt = .ok version
  owner : version < 5 → initialUser = some user
  result : migrated = source.offline.upgraded user t.steps version (7 - version.toNat)
  verified : ∀ m < 7 - version.toNat, VersionInvariants phc
    (source.offline.upgraded user t.steps version (m + 1)) (version + m + 1)
    (t.steps (version + m + 1)).verifiedAt
  rotated : version < 3 →
    ∃ n, migrated.rotateRecoveryEpoch newIds t.rotatedAt = .ok (n, target)
  kept : 3 ≤ version → target = migrated
  accepted : Database.verifyConnection phc target t.verifiedAt = .ok ()

section

variable {phc : PhcParser} {source migrated target : Database} {initialUser : Option InitialUser}
  {newIds : List String} {t : MigrationReadings} {version now : Int} {user : InitialUser}

/-- The checks read no byte counter. -/
theorem verifyRecordedSchema_offline : Database.verifyRecordedSchema phc source.offline now =
    Database.verifyRecordedSchema phc source now := rfl

theorem migrateVersionedDatabaseUnderLock_ok
    (h : source.migrateVersionedDatabaseUnderLock phc initialUser newIds t = .ok target) :
    ∃ version user migrated,
      Migrated phc source initialUser newIds t version user migrated target := by
  simp only [Database.migrateVersionedDatabaseUnderLock, bind_eq_ok, rejectIf_eq_ok, exists_unit,
    pure_eq_ok] at h
  obtain ⟨version, hsource, hnot, version', hcopy, migrated, hmigrate, last, hrotate, haccepted,
    rfl⟩ := h
  obtain ⟨-, h₁, h₇, -⟩ := migrationVersions_of_recorded hsource
  obtain rfl : version' = version :=
    (verifyRecordedSchema_ok.mp hcopy).2.2.2.1.symm.trans
      (verifyRecordedSchema_ok.mp hsource).2.2.2.1
  have howner : ∃ user, version' < 5 → initialUser = some user := by
    by_cases h₅ : version' < 5
    · obtain ⟨user, huser⟩ := exists_initialUser_of_migrate hcopy h₅ hmigrate
      exact ⟨user, fun _ => huser⟩
    · exact ⟨⟨"", "", "", ""⟩, fun h => absurd h h₅⟩
  obtain ⟨user, huser⟩ := howner
  obtain ⟨hresult, hverified⟩ := (migrate_ok hcopy huser).mp hmigrate
  have hlt : version' < 7 := lt_of_le_of_ne h₇ hnot
  refine ⟨version', user, migrated, hsource, h₁, hlt, hcopy, huser, hresult, hverified, ?_, ?_,
    haccepted⟩
  · intro h₃
    rw [if_pos h₃] at hrotate
    simp only [bind_eq_ok, pure_eq_ok, Prod.exists] at hrotate
    obtain ⟨n, _, hrotate, rfl⟩ := hrotate
    exact ⟨n, hrotate⟩
  · intro h₃
    rw [if_neg (by omega)] at hrotate
    exact (pure_eq_ok.mp hrotate).symm

theorem Migrated.ok (h : Migrated phc source initialUser newIds t version user migrated target) :
    source.migrateVersionedDatabaseUnderLock phc initialUser newIds t = .ok target := by
  simp only [Database.migrateVersionedDatabaseUnderLock, bind_eq_ok, rejectIf_eq_ok, exists_unit,
    pure_eq_ok]
  refine ⟨version, h.recorded, h.version_lt.ne, version, h.copied, migrated,
    (migrate_ok h.copied h.owner).mpr ⟨h.result, h.verified⟩, target, ?_, h.accepted, rfl⟩
  by_cases h₃ : version < 3
  · obtain ⟨n, hrotate⟩ := h.rotated h₃
    rw [if_pos h₃, hrotate]
    rfl
  · rw [if_neg h₃, h.kept (by omega)]
    rfl

theorem Migrated.recordedVersion
    (h : Migrated phc source initialUser newIds t version user migrated target) :
    source.recordedVersion = version :=
  (verifyRecordedSchema_ok.mp h.recorded).2.2.2.1

/-- The last validator on the way is that of version 7. -/
theorem verified_last {db : Database} {clock : Int → StepReadings} (h₁ : 1 ≤ version)
    (h₇ : version < 7)
    (h : ∀ m < 7 - version.toNat, VersionInvariants phc (db.upgraded user clock version (m + 1))
      (version + m + 1) (clock (version + m + 1)).verifiedAt) :
    VersionInvariants phc (db.upgraded user clock version (7 - version.toNat)) 7
      (clock 7).verifiedAt := by
  have hlast := h (6 - version.toNat) (by omega)
  have hcount : 6 - version.toNat + 1 = 7 - version.toNat := by omega
  have hversion : version + (6 - version.toNat : Nat) + 1 = 7 := by omega
  rwa [hcount, hversion] at hlast

theorem Migrated.verified_migrated
    (h : Migrated phc source initialUser newIds t version user migrated target) :
    VersionInvariants phc migrated 7 (t.steps 7).verifiedAt := by
  rw [h.result]
  exact verified_last h.version_pos h.version_lt h.verified

end

/-! ## Keys -/

/-- The primary keys and unique indexes of the tables that there are. -/
structure Keys (db : Database) : Prop where
  vaultId : (db.vaults.map (·.id)).Nodup
  revisionUid : (db.revisions.map (·.uid)).Nodup
  contentUid : .revisionContent ∈ db.tables → (db.revisionContent.map (·.uid)).Nodup
  sessionToken : .sessions ∈ db.tables → (db.sessions.map (·.tokenHash)).Nodup
  retiredId : .retiredVaults ∈ db.tables → (db.retiredVaults.map (·.id)).Nodup
  userId : .users ∈ db.tables → (db.users.map (·.id)).Nodup
  userEmail : .users ∈ db.tables → (db.users.map (·.emailCanonical)).Nodup
  membershipId : .memberships ∈ db.tables → (db.memberships.map (·.id)).Nodup
  membershipActive : .memberships ∈ db.tables →
    ((db.memberships.filter (·.active)).map fun m => (m.vaultId, m.userId)).Nodup

namespace Keys

variable {phc : PhcParser} {db : Database} {user : InitialUser} {now version : Int}
  {t : StepReadings} {clock : Int → StepReadings}

theorem of_constraints (h : Constraints db) : Keys db where
  vaultId := h.vaultId
  revisionUid := h.revisionUid
  contentUid _ := h.contentUid
  sessionToken _ := h.sessionToken
  retiredId _ := h.retiredId
  userId _ := h.userId
  userEmail _ := h.userEmail
  membershipId _ := h.membershipId
  membershipActive _ := h.membershipActive

theorem offline (h : Keys db) : Keys db.offline := { h with }

theorem migration2 (h : Keys db) : Keys db.migration2 where
  vaultId := h.vaultId
  revisionUid := h.revisionUid
  contentUid _ := List.nodup_nil
  sessionToken _ := List.nodup_nil
  retiredId ht := h.retiredId (by simpa [Database.migration2] using ht)
  userId ht := h.userId (by simpa [Database.migration2] using ht)
  userEmail ht := h.userEmail (by simpa [Database.migration2] using ht)
  membershipId ht := h.membershipId (by simpa [Database.migration2] using ht)
  membershipActive ht := h.membershipActive (by simpa [Database.migration2] using ht)

theorem migration4 (h : Keys db) : Keys db.migration4 where
  vaultId := h.vaultId
  revisionUid := h.revisionUid
  contentUid ht := h.contentUid (by simpa [Database.migration4] using ht)
  sessionToken ht := h.sessionToken (by simpa [Database.migration4] using ht)
  retiredId _ := List.nodup_nil
  userId ht := h.userId (by simpa [Database.migration4] using ht)
  userEmail ht := h.userEmail (by simpa [Database.migration4] using ht)
  membershipId ht := h.membershipId (by simpa [Database.migration4] using ht)
  membershipActive ht := h.membershipActive (by simpa [Database.migration4] using ht)

theorem migration5 (h : Keys db) : Keys (db.migration5 user now) where
  vaultId := by
    show ((db.vaults.map _).map _).Nodup
    rw [List.map_map]
    exact h.vaultId
  revisionUid := by
    show ((db.revisions.map _).map _).Nodup
    rw [List.map_map]
    exact h.revisionUid
  contentUid ht := h.contentUid (by simpa [Database.migration5] using ht)
  sessionToken ht := by
    show ((db.sessions.map _).map _).Nodup
    rw [List.map_map]
    exact h.sessionToken (by simpa [Database.migration5] using ht)
  retiredId ht := by
    show ((db.retiredVaults.map _).map _).Nodup
    rw [List.map_map]
    exact h.retiredId (by simpa [Database.migration5] using ht)
  userId _ := List.nodup_singleton _
  userEmail _ := List.nodup_singleton _
  membershipId ht := h.membershipId (by simpa [Database.migration5] using ht)
  membershipActive ht := h.membershipActive (by simpa [Database.migration5] using ht)

theorem migration6 (h : Keys db) : Keys db.migration6 where
  vaultId := h.vaultId
  revisionUid := h.revisionUid
  contentUid ht := h.contentUid (by simpa [Database.migration6] using ht)
  sessionToken _ := List.nodup_nil
  retiredId ht := h.retiredId (by simpa [Database.migration6] using ht)
  userId ht := h.userId (by simpa [Database.migration6] using ht)
  userEmail ht := h.userEmail (by simpa [Database.migration6] using ht)
  membershipId _ := List.nodup_nil
  membershipActive _ := List.nodup_nil

theorem migration7 (h : Keys db) : Keys (db.migration7 now) where
  vaultId := h.vaultId
  revisionUid := h.revisionUid
  contentUid ht := h.contentUid (by simpa [Database.migration7] using ht)
  sessionToken _ := List.nodup_nil
  retiredId ht := h.retiredId (by simpa [Database.migration7] using ht)
  userId ht := by
    show ((db.users.map _).map _).Nodup
    rw [List.map_map]
    exact h.userId (by simpa [Database.migration7] using ht)
  userEmail ht := by
    show ((db.users.map _).map _).Nodup
    rw [List.map_map]
    exact h.userEmail (by simpa [Database.migration7] using ht)
  membershipId ht := h.membershipId (by simpa [Database.migration7] using ht)
  membershipActive ht := h.membershipActive (by simpa [Database.migration7] using ht)

theorem upgrade (h : Keys db) : Keys (db.upgrade user version t) := by
  have hrecord : ∀ {db : Database}, Keys db → Keys (db.recordMigration version t.appliedAt) :=
    fun h => { h with }
  refine hrecord ?_
  split_ifs
  · exact h.migration5
  · exact h.migration6
  · exact h.migration7
  · exact h.migration2
  · exact h.migration4
  · exact h

theorem upgraded (h : Keys db) (n : Nat) : Keys (db.upgraded user clock version n) := by
  induction n with
  | zero => exact h
  | succ n ih => exact ih.upgrade

/-- With the references that the validator of version 7 checks, the keys are all that its
schema asks for. -/
theorem constraints (h : Keys db) (hv : VersionInvariants phc db 7 now) : Constraints db := by
  have hall : ∀ table, table ∈ db.tables := fun table => (hv.tables table).mpr (by
    cases table <;> decide)
  obtain ⟨hvault, hcontent, howners, hmembers, -⟩ := hv.foreignKeys
  obtain ⟨hvaultOwner, hauthor, hsession, hretired⟩ := howners (by decide)
  exact {
    userId := h.userId (hall _)
    userEmail := h.userEmail (hall _)
    vaultId := h.vaultId
    revisionUid := h.revisionUid
    contentUid := h.contentUid (hall _)
    sessionToken := h.sessionToken (hall _)
    retiredId := h.retiredId (hall _)
    membershipId := h.membershipId (hall _)
    membershipActive := h.membershipActive (hall _)
    vaultOwner := hvaultOwner
    revisionVault := hvault
    revisionUser := hauthor
    contentRevision := fun c hc => by simpa using hcontent (by decide) c hc
    sessionUser := hsession
    retiredOwner := hretired
    membershipVault := fun m hm => (hmembers (by decide) m hm).1
    membershipUser := fun m hm => (hmembers (by decide) m hm).2.1
    membershipInviter := fun m hm => (hmembers (by decide) m hm).2.2 }

end Keys

/-- A database file of some version. -/
structure DatabaseFile where
  db : Database
  keys : Keys db

/-- A file that the server starts on is a database of the version 7 schema. -/
theorem DatabaseFile.constraints {phc : PhcParser} {file : DatabaseFile} {now : Int}
    (h : Database.verifyConnection phc file.db now = .ok ()) : Constraints file.db :=
  file.keys.constraints (verifyRecordedSchema_ok.mp (verifyConnection_ok.mp h)).2.2.2.2

/-- What the command makes is a database that SQLite can hold. -/
theorem Migrated.constraints {phc : PhcParser} {source migrated target : Database}
    {initialUser : Option InitialUser} {newIds : List String} {t : MigrationReadings}
    {version : Int} {user : InitialUser} (hkeys : Keys source)
    (h : Migrated phc source initialUser newIds t version user migrated target) :
    Constraints migrated ∧ Constraints target := by
  have hmigrated : Constraints migrated := by
    refine Keys.constraints ?_ h.verified_migrated
    rw [h.result]
    exact hkeys.offline.upgraded _
  refine ⟨hmigrated, ?_⟩
  by_cases h₃ : version < 3
  · obtain ⟨n, hrotate⟩ := h.rotated h₃
    exact hmigrated.rotateRecoveryEpoch hrotate
  · rw [h.kept (by omega)]
    exact hmigrated

/-- The file after the command. -/
def DatabaseFile.migrate (phc : PhcParser) (file : DatabaseFile) (initialUser : Option InitialUser)
    (newIds : List String) (t : MigrationReadings) : DatabaseFile :=
  match h : file.db.migrateVersionedDatabaseUnderLock phc initialUser newIds t with
  | .ok db => ⟨db, by
      obtain ⟨_, _, _, hm⟩ := migrateVersionedDatabaseUnderLock_ok h
      exact .of_constraints (hm.constraints file.keys).2⟩
  | .error _ => file

/-! ## A small file -/

/-- A database of version 4 with one vault. -/
def versionFour (sequence : Int) (vault : VaultRow) (revisions : List RevisionRow) : Database :=
  { tables := Database.tablesAt 4
    schemaMigrations := [⟨1, 0⟩, ⟨2, 0⟩, ⟨3, 0⟩, ⟨4, 0⟩]
    sqliteSequence := [⟨some "revisions", sequence⟩]
    users := []
    vaults := [vault]
    revisions := revisions
    revisionContent := []
    sessions := []
    retiredVaults := []
    memberships := []
    serverSettings := []
    runtimeStorageUsage := none }

def emptyVault : VaultRow :=
  { id := "vault", name := "Notes", keyhash := some "k", salt := some "s", host := "h",
    region := "r", encryptionVersion := 3, size := 0, created := 0, password := none,
    version := 0, ownerUserId := 0 }

def firstOwner : InitialUser :=
  { emailCanonical := "owner@example.test", email := "owner@example.test", name := "Owner",
    passwordHash := somePasswordHash }

/-- The command is run at time 0. -/
def atZero : MigrationReadings := ⟨0, 0, fun _ => ⟨0, 0, 0⟩, 0, 0⟩

end Blackglass
