import Mathlib.Tactic.Common

/-!
# The database: limits, rows and tables

The server keeps everything it must not lose in one SQLite database.  This file
fixes the shape of that database: the limits of `db.rs`, one record for each
table's rows under the source's column names, and the record `Database` of all
tables together with the connection's runtime byte counter.

A column that the schema declares `INTEGER` or `TEXT` is an `Int` or a `String`
here, a nullable one an `Option`; the columns the source only ever reads as flags
or as one of two words (`folder`, `deleted`, `status`, `role`) are the
corresponding finite types.  Tables are lists of rows: a `SELECT` is a filter, and
where the source asks for an order it is asked for again in the model.

The same record serves every schema version.  `tables` lists the tables that
exist; the rows of a table and the columns that the recorded version does not have
yet are never read before a migration creates and fills them.
-/

namespace Blackglass

/-! ## Limits -/

def currentSchemaVersion : Int := 7

def maxVaults : Int := 100

def maxJsSafeInteger : Int := 9007199254740991

def maxUsers : Int := 256

def maxRetiredVaults : Int := 8192

def maxRetiredVaultsPerOwner : Int := 512

def maxSessions : Int := 1024

def maxSessionsPerUser : Int := 64

def maxActiveCollaboratorsPerVault : Int := 20

def maxRevokedMembershipsPerVault : Int := 64

def maxMemberships : Int := 8192

/-- `REVISION_PIECE_SIZE` of `db.rs`, which is `PIECE_SIZE` of `server.rs`. -/
def revisionPieceSize : Int := 2 * 1024 * 1024

/-! ## Rows -/

/-- The bytes of a `BLOB` column. -/
abbrev Blob := List UInt8

inductive UserStatus where
  | active
  | disabled
deriving DecidableEq

inductive UserRole where
  | admin
  | user
deriving DecidableEq

/-- `users`.  The table exists from version 5, its `role` column from version 7. -/
structure UserRow where
  id : Int
  emailCanonical : String
  email : String
  name : String
  passwordHash : String
  status : UserStatus
  createdAt : Int
  updatedAt : Int
  role : UserRole
deriving DecidableEq

/-- `vaults`.  The column `ownerUserId` exists from version 5. -/
structure VaultRow where
  id : String
  name : String
  keyhash : Option String
  salt : Option String
  host : String
  region : String
  encryptionVersion : Int
  size : Int
  created : Int
  password : Option String
  version : Int
  ownerUserId : Int
deriving DecidableEq

/-- `revisions`, with the inline `content` column that only the oldest servers
wrote. -/
structure RevisionRow where
  uid : Int
  vaultId : String
  path : String
  relatedpath : Option String
  extension : String
  hash : String
  ctime : Int
  mtime : Int
  folder : Bool
  deleted : Bool
  size : Int
  pieces : Int
  content : Option Blob
  device : String
  userId : Int
  ts : Int
deriving DecidableEq

/-- `revision_content`, from version 2. -/
structure RevisionContentRow where
  uid : Int
  content : Blob
deriving DecidableEq

/-- `sessions`, from version 2; the column `userId` exists from version 5. -/
structure SessionRow where
  tokenHash : String
  userId : Int
  createdAt : Int
  expiresAt : Int
  revokedAt : Option Int
deriving DecidableEq

/-- `retired_vaults`, from version 4; the column `ownerUserId` exists from
version 5. -/
structure RetiredVaultRow where
  id : String
  ownerUserId : Int
  retiredAt : Int
deriving DecidableEq

/-- `memberships`, from version 6. -/
structure MembershipRow where
  id : Int
  vaultId : String
  userId : Int
  invitedByUserId : Int
  acceptedAt : Int
  createdAt : Int
  revokedAt : Option Int
deriving DecidableEq

/-- A membership counts as active until it is revoked. -/
def MembershipRow.active (m : MembershipRow) : Bool := m.revokedAt.isNone

/-- `server_settings`, from version 7. -/
structure ServerSettingsRow where
  id : Int
  selfRegistrationEnabled : Bool
  updatedAt : Int
  updatedBy : Int
deriving DecidableEq

structure SchemaMigrationRow where
  version : Int
  appliedAt : Int
deriving DecidableEq

/-- A row of `sqlite_sequence`.  The column has no `NOT NULL`, and the validator's
`name NOT IN (..)` lets a `NULL` name pass. -/
structure SequenceRow where
  name : Option String
  seq : Int
deriving DecidableEq

/-! ## The database -/

/-- The names of the tables a recorded schema may have. -/
inductive Table where
  | schemaMigrations
  | sqliteSequence
  | users
  | vaults
  | revisions
  | revisionContent
  | sessions
  | retiredVaults
  | memberships
  | serverSettings
deriving DecidableEq

/-- Every table name, for the comparison of `sqlite_schema` with a list of
expected objects. -/
def Table.all : List Table :=
  [.schemaMigrations, .sqliteSequence, .users, .vaults, .revisions, .revisionContent,
    .sessions, .retiredVaults, .memberships, .serverSettings]

/-- The contents of one database file, and of the `TEMP` table that a serving
connection adds to it: `runtimeStorageUsage` is `ciphertext_bytes` of
`blackglass_runtime_storage_usage`, and is `none` on a connection that never ran
`initialize_runtime_storage_usage`. -/
structure Database where
  tables : List Table
  schemaMigrations : List SchemaMigrationRow
  sqliteSequence : List SequenceRow
  users : List UserRow
  vaults : List VaultRow
  revisions : List RevisionRow
  revisionContent : List RevisionContentRow
  sessions : List SessionRow
  retiredVaults : List RetiredVaultRow
  memberships : List MembershipRow
  serverSettings : List ServerSettingsRow
  runtimeStorageUsage : Option Int
deriving DecidableEq

/-- What a call into the database can fail with.  `bail` carries the text of the
source; the two typed errors are the ones the server distinguishes by downcast. -/
inductive DbError where
  | bail (message : String)
  | storageQuotaExceeded
  | conditionalWriteConflict
  /-- A constraint of the schema (a key or a foreign key) rejected a statement. -/
  | constraint
  /-- `query_row` found no row where one was required. -/
  | queryReturnedNoRows
  /-- A blob handle or the staged file failed. -/
  | io
deriving DecidableEq

/-- `model.rs`, `Vault`: a vault as a request or an answer carries it. -/
structure Vault where
  id : String
  name : String
  keyhash : Option String
  salt : Option String
  host : String
  region : String
  encryptionVersion : Int
  size : Int
  created : Int
  password : Option String
deriving DecidableEq

/-- `model.rs`, `Revision`: a stored revision without its content. -/
structure Revision where
  uid : Int
  vaultId : String
  path : String
  relatedpath : Option String
  extension : String
  hash : String
  ctime : Int
  mtime : Int
  folder : Bool
  deleted : Bool
  size : Int
  pieces : Int
  device : String
  userId : Int
  ts : Int
deriving DecidableEq

/-- `revision_row`. -/
def RevisionRow.toRevision (r : RevisionRow) : Revision :=
  { uid := r.uid, vaultId := r.vaultId, path := r.path, relatedpath := r.relatedpath,
    extension := r.extension, hash := r.hash, ctime := r.ctime, mtime := r.mtime,
    folder := r.folder, deleted := r.deleted, size := r.size, pieces := r.pieces,
    device := r.device, userId := r.userId, ts := r.ts }

/-- `model.rs`, `NewRevision`: the metadata of a push that was accepted. -/
structure NewRevision where
  vaultId : String
  path : String
  relatedpath : Option String
  extension : String
  hash : String
  ctime : Int
  mtime : Int
  folder : Bool
  deleted : Bool
  size : Int
  pieces : Int
  device : String
  userId : Int
  expectedVersion : Option Int
deriving DecidableEq

/-- `model.rs`, `VaultShareItem`. -/
structure VaultShareItem where
  uid : Int
  email : String
  name : Option String
  accepted : Bool
deriving DecidableEq

/-- `model.rs`, `VaultAccess`: how a user may act on a vault. -/
inductive VaultAccess where
  | owner (userId : Int) (vaultId : String)
  | collaborator (userId : Int) (vaultId : String) (shareUid : Int)
deriving DecidableEq

end Blackglass
