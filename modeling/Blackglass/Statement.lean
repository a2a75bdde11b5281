import Blackglass.Schema
import Blackglass.Lib.Outcome
import Blackglass.Lib.Rows

/-!
# The statements of the server

One definition for each SQL statement that several operations share: the inserts
with the key and foreign-key checks of the schema, the `AUTOINCREMENT` sequences,
the deletes with their `ON DELETE CASCADE`, the `TEMP` triggers that keep the byte
counter, and the per-path heads from which a vault's size is recomputed.

A statement is a check of the schema's constraints followed by a change of the
tables.  The change alone is a function `with..` or `without..` on databases; what
SQLite rejects ends the whole transaction, so the statements themselves live in
`Except DbError` and the operations built from them either return a new database or
leave the old one.
-/

namespace Blackglass

open Rows Outcome

/-! ## Sequences -/

/-- What `AUTOINCREMENT` writes back after an insert: the first row of the table's
name takes the new value, and a missing row is created. -/
def setSequence : List SequenceRow → String → Int → List SequenceRow
  | [], name, seq => [⟨some name, seq⟩]
  | row :: rows, name, seq =>
    if row.name = some name then { row with seq := seq } :: rows
    else row :: setSequence rows name seq

/-- The rowid `AUTOINCREMENT` gives the next row: one more than the largest ever
used, as recorded by the sequence, and than the largest present. -/
def nextRowid (seq : Option Int) (ids : List Int) : Int :=
  max (seq.getD 0) (maxOr0 ids) + 1

namespace Database

/-- `SELECT seq FROM sqlite_sequence WHERE name=?`. -/
def sequence (db : Database) (name : String) : Option Int :=
  (db.sqliteSequence.find? fun row => row.name = some name).map (·.seq)

def nextRevisionUid (db : Database) : Int :=
  nextRowid (db.sequence "revisions") (db.revisions.map (·.uid))

def nextMembershipId (db : Database) : Int :=
  nextRowid (db.sequence "memberships") (db.memberships.map (·.id))

/-! ## Rows that other rows refer to -/

def hasUser (db : Database) (id : Int) : Bool := db.users.any fun u => u.id = id

def hasVault (db : Database) (id : String) : Bool := db.vaults.any fun v => v.id = id

/-- `SELECT .. FROM vaults WHERE id=?`. -/
def vault? (db : Database) (id : String) : Option VaultRow := db.vaults.find? fun v => v.id = id

/-- `SELECT EXISTS(SELECT 1 FROM vaults WHERE id=? AND owner_user_id=?)`. -/
def ownsVault (db : Database) (userId : Int) (id : String) : Bool :=
  db.vaults.any fun v => v.id = id && v.ownerUserId = userId

/-! ## Inserts -/

@[simps]
def withVault (db : Database) (row : VaultRow) : Database :=
  { db with vaults := db.vaults ++ [row] }

/-- `INSERT INTO vaults(..)`. -/
def insertVault (db : Database) (row : VaultRow) : Except DbError Database := do
  rejectIf (db.hasVault row.id || !db.hasUser row.ownerUserId) .constraint
  return db.withVault row

/-- `CHECK(ciphertext_bytes>=0)` of the `TEMP` table, after a trigger has moved the
counter by `delta`.  Sizes are not negative, so that of the rows one statement deletes
only the last can fail it. -/
def runtimeStorageRejects (db : Database) (delta : Int) : Bool :=
  db.runtimeStorageUsage.any fun bytes => bytes + delta < 0

/-- The new row takes the next `uid`, and `blackglass_runtime_storage_insert` adds its
size to the counter. -/
@[simps]
def withRevision (db : Database) (row : RevisionRow) : Database :=
  { db with
    revisions := db.revisions ++ [{ row with uid := db.nextRevisionUid }]
    sqliteSequence := setSequence db.sqliteSequence "revisions" db.nextRevisionUid
    runtimeStorageUsage := db.runtimeStorageUsage.map (· + row.size) }

/-- `INSERT INTO revisions(..)` without a `uid`; the new row's is
`last_insert_rowid()`. -/
def insertRevision (db : Database) (row : RevisionRow) : Except DbError (Int × Database) := do
  rejectIf (!db.hasVault row.vaultId || !db.hasUser row.userId ||
    db.runtimeStorageRejects row.size) .constraint
  return (db.nextRevisionUid, db.withRevision row)

@[simps]
def withRevisionContent (db : Database) (uid : Int) (content : Blob) : Database :=
  { db with revisionContent := db.revisionContent ++ [⟨uid, content⟩] }

/-- `INSERT INTO revision_content(uid,content)`, with the bytes that the blob handle
writes into it before the transaction commits. -/
def insertRevisionContent (db : Database) (uid : Int) (content : Blob) :
    Except DbError Database := do
  rejectIf (db.revisionContent.any (fun c => c.uid = uid) ||
    !db.revisions.any (fun r => r.uid = uid)) .constraint
  return db.withRevisionContent uid content

@[simps]
def withMembership (db : Database) (row : MembershipRow) : Database :=
  { db with
    memberships := db.memberships ++ [{ row with id := db.nextMembershipId }]
    sqliteSequence := setSequence db.sqliteSequence "memberships" db.nextMembershipId }

/-- `INSERT INTO memberships(..)` without an `id`; besides the foreign keys there is
the unique index over the active rows of a vault and a user. -/
def insertMembership (db : Database) (row : MembershipRow) : Except DbError (Int × Database) := do
  rejectIf (!db.hasVault row.vaultId || !db.hasUser row.userId || !db.hasUser row.invitedByUserId ||
    (row.active && db.memberships.any fun m =>
      m.active && m.vaultId = row.vaultId && m.userId = row.userId)) .constraint
  return (db.nextMembershipId, db.withMembership row)

@[simps]
def withRetiredVault (db : Database) (row : RetiredVaultRow) : Database :=
  { db with retiredVaults := (db.retiredVaults.filter fun r => r.id ≠ row.id) ++ [row] }

/-- `INSERT OR REPLACE INTO retired_vaults(..)`. -/
def replaceRetiredVault (db : Database) (row : RetiredVaultRow) : Except DbError Database := do
  rejectIf (!db.hasUser row.ownerUserId) .constraint
  return db.withRetiredVault row

/-! ## Deletes -/

/-- Rows of `revisions` go, `revision_content` follows by its cascade and
`blackglass_runtime_storage_delete` takes their sizes off the counter. -/
@[simps]
def withoutRevisions (db : Database) (p : RevisionRow → Bool) : Database :=
  { db with
    revisions := db.revisions.filter fun r => !p r
    revisionContent := db.revisionContent.filter fun c =>
      !db.revisions.any fun r => p r && r.uid = c.uid
    runtimeStorageUsage :=
      db.runtimeStorageUsage.map (· - sumOf (·.size) (db.revisions.filter p)) }

/-- `DELETE FROM revisions WHERE ..`. -/
def deleteRevisions (db : Database) (p : RevisionRow → Bool) : Except DbError Database := do
  rejectIf (db.runtimeStorageRejects (-sumOf (·.size) (db.revisions.filter p))) .constraint
  return db.withoutRevisions p

/-- Rows of `vaults` go, with the revisions (and through them their contents) and the
memberships that refer to them. -/
@[simps]
def withoutVaults (db : Database) (p : VaultRow → Bool) : Database :=
  { db.withoutRevisions (fun r => db.vaults.any fun v => p v && v.id = r.vaultId) with
    vaults := db.vaults.filter fun v => !p v
    memberships := db.memberships.filter fun m =>
      !db.vaults.any fun v => p v && v.id = m.vaultId }

/-- `DELETE FROM vaults WHERE ..`. -/
def deleteVaults (db : Database) (p : VaultRow → Bool) : Except DbError Database := do
  rejectIf (db.runtimeStorageRejects (-sumOf (·.size) (db.revisions.filter fun r =>
    db.vaults.any fun v => p v && v.id = r.vaultId))) .constraint
  return db.withoutVaults p

/-! ## Updates -/

@[simps]
def mapVaults (db : Database) (f : VaultRow → VaultRow) : Database :=
  { db with vaults := db.vaults.map f }

@[simps]
def mapMemberships (db : Database) (f : MembershipRow → MembershipRow) : Database :=
  { db with memberships := db.memberships.map f }

@[simps]
def filterMemberships (db : Database) (p : MembershipRow → Bool) : Database :=
  { db with memberships := db.memberships.filter p }

@[simps]
def mapSessions (db : Database) (f : SessionRow → SessionRow) : Database :=
  { db with sessions := db.sessions.map f }

/-! ## Heads and aggregates -/

/-- `SELECT MAX(uid) FROM revisions WHERE vault_id=? GROUP BY path`. -/
def headUids (db : Database) (id : String) : List Int :=
  groupMax (·.path) (·.uid) (db.revisions.filter fun r => r.vaultId = id)

def vaultSize (db : Database) (id : String) : Int :=
  sumOf (·.size) (db.revisions.filter fun r =>
    r.uid ∈ db.headUids id && !r.deleted && !r.folder)

def refreshVault (db : Database) (id : String) (version : Int) : Database :=
  db.mapVaults fun v =>
    if v.id = id then { v with size := db.vaultSize id, version := version } else v

/-- Reads the counter; without the `TEMP` table the query fails. -/
def storedCiphertextSize (db : Database) : Except DbError Int :=
  orReject db.runtimeStorageUsage .queryReturnedNoRows

/-- `revisions r JOIN vaults v ON v.id=r.vault_id WHERE v.owner_user_id=?`. -/
def ownerStoredCiphertextSize (db : Database) (userId : Int) : Int :=
  sumOf (·.size) (db.revisions.filter fun r => db.ownsVault userId r.vaultId)

/-- The counter starts from the sum of all revision sizes. -/
@[simps]
def initializeRuntimeStorageUsage (db : Database) : Database :=
  { db with runtimeStorageUsage := some (sumOf (·.size) db.revisions) }

end Database

/-! ## What a sequence guarantees -/

/-- The next rowid is larger than the sequence and than every id present. -/
theorem lt_nextRowid {seq : Option Int} {ids : List Int} {x : Int} (h : x ∈ ids) :
    x < nextRowid seq ids := by
  have := le_maxOr0 h
  unfold nextRowid
  omega

theorem getD_lt_nextRowid (seq : Option Int) (ids : List Int) : seq.getD 0 < nextRowid seq ids := by
  unfold nextRowid
  omega

theorem nextRowid_pos {seq : Option Int} {ids : List Int} (h : 0 ≤ seq.getD 0) :
    0 < nextRowid seq ids := by
  have := getD_lt_nextRowid seq ids
  omega

/-- A sequence that is not below the ids present alone decides the next rowid. -/
theorem nextRowid_eq {seq : Option Int} {ids : List Int} (h : maxOr0 ids ≤ seq.getD 0) :
    nextRowid seq ids = seq.getD 0 + 1 := by
  unfold nextRowid
  omega

/-- Writing a sequence back makes it the table's value. -/
theorem find_setSequence_self (rows : List SequenceRow) (name : String) (seq : Int) :
    ((setSequence rows name seq).find? fun row => row.name = some name).map (·.seq) =
      some seq := by
  induction rows with
  | nil => simp [setSequence]
  | cons row rows ih =>
    by_cases h : row.name = some name
    · simp [setSequence, h]
    · simpa [setSequence, h] using ih

/-- Writing one table's sequence back leaves the others'. -/
theorem find_setSequence_of_ne (rows : List SequenceRow) {name other : String} (seq : Int)
    (hne : other ≠ name) :
    ((setSequence rows name seq).find? fun row => row.name = some other).map (·.seq) =
      (rows.find? fun row => row.name = some other).map (·.seq) := by
  induction rows with
  | nil => simp [setSequence, hne.symm]
  | cons row rows ih =>
    by_cases h : row.name = some name
    · simp [setSequence, h, hne.symm]
    · by_cases ho : row.name = some other
      · simp [setSequence, ho, hne]
      · simpa [setSequence, h, ho] using ih

end Blackglass
