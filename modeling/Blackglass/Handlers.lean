import Blackglass.Request
import Blackglass.Lib.Json

/-!
# The handlers of the server

What `server.rs` makes of a client's JSON before the database sees it: the decoding of a
request's record, the checks with the text of their errors, and the request that goes to
the database.  Only the handlers that take text from a client and have it stored are here.

A handler that looks at the database first does so in an earlier transaction than its
request's, so it is given the database it saw.  What the server adds of its own, a fresh
identity, the clock and random bytes, is given as `Fresh`.
-/

namespace Blackglass

open Outcome Text Json

/-! ## Settings -/

/-- The settings of `config.rs` that the handlers read. -/
structure Config where
  publicDataHost : String
  perFileMax : Int
  storageQuotaBytes : Int
  storageQuotaBytesPerOwner : Int
  sharingAllowedForOwner : Int → Bool

def aesGcmWireOverheadBytes : Int := 12 + 16

def maxCiphertextSize (config : Config) : Int := config.perFileMax + aesGcmWireOverheadBytes

def jsSafeNonnegative (value : Int) : Bool := 0 ≤ value && value ≤ maxJsSafeInteger

def bounded (v : String) (max : Nat) : Option String := if Bounded max v then some v else none

/-! ## Records of `model.rs` -/

structure VaultCreate where
  token : Option String
  name : Option String
  keyhash : Option String
  salt : Option String
  encryptionVersion : Option Int

def VaultCreate.fromValue (v : Value) : Option VaultCreate := do
  let [token, name, keyhash, salt, encryptionVersion] ←
    v.structFields ["token", "name", "keyhash", "salt", "encryption_version"] | none
  return { token := ← optionStr token, name := ← optionStr name, keyhash := ← optionStr keyhash,
           salt := ← optionStr salt, encryptionVersion := ← optionI64 encryptionVersion }

structure VaultAccessRequest where
  token : Option String
  vaultUid : Option String
  keyhash : Option String
  host : Option String
  encryptionVersion : Option Int

def VaultAccessRequest.fromValue (v : Value) : Option VaultAccessRequest := do
  let [token, vaultUid, keyhash, host, encryptionVersion] ←
    v.structFields ["token", "vault_uid", "keyhash", "host", "encryption_version"] | none
  return { token := ← optionStr token, vaultUid := ← optionStr vaultUid,
           keyhash := ← optionStr keyhash, host := ← optionStr host,
           encryptionVersion := ← optionI64 encryptionVersion }

structure VaultRename where
  token : Option String
  vaultUid : Option String
  name : Option String

def VaultRename.fromValue (v : Value) : Option VaultRename := do
  let [token, vaultUid, name] ← v.structFields ["token", "vault_uid", "name"] | none
  return { token := ← optionStr token, vaultUid := ← optionStr vaultUid, name := ← optionStr name }

structure VaultMigrate where
  token : Option String
  vaultUid : Option String
  keyhash : Option String
  salt : Option String
  region : Option String
  encryptionVersion : Option Int

def VaultMigrate.fromValue (v : Value) : Option VaultMigrate := do
  let [token, vaultUid, keyhash, salt, region, encryptionVersion] ←
    v.structFields ["token", "vault_uid", "keyhash", "salt", "region", "encryption_version"] | none
  return { token := ← optionStr token, vaultUid := ← optionStr vaultUid,
           keyhash := ← optionStr keyhash, salt := ← optionStr salt, region := ← optionStr region,
           encryptionVersion := ← optionI64 encryptionVersion }

/-! ## Vaults -/

/-- What the server draws for a new vault. -/
structure Fresh where
  id : String
  now : Int
  password : Vector UInt8 32
  salt : Vector UInt8 16

structure VaultCredentials where
  keyhash : Option String
  salt : Option String
  password : Option String

/-- `vault_credentials`, with `new_managed_vault_credentials` of `auth.rs`. -/
def vaultCredentials (fresh : Fresh) (keyhash salt : Option String) :
    Except String VaultCredentials :=
  match keyhash, salt with
  | none, none =>
    .ok { keyhash := none, salt := some (hexEncode fresh.salt.toList),
          password := some (hexEncode fresh.password.toList) }
  | some keyhash, some salt =>
    if Bounded 4096 keyhash ∧ Bounded 4096 salt then
      .ok { keyhash := some keyhash, salt := some salt, password := none }
    else .error "Invalid encryption credentials"
  | _, _ => .error "Invalid encryption credentials"

/-- The record a handler makes for a new vault. -/
def newVault (config : Config) (fresh : Fresh) (name : String) (encryptionVersion : Int)
    (credentials : VaultCredentials) : Vault :=
  { id := fresh.id, name := name, keyhash := credentials.keyhash, salt := credentials.salt,
    host := config.publicDataHost, region := "Blackglass Server",
    encryptionVersion := encryptionVersion, size := 0, created := fresh.now,
    password := credentials.password }

/-- `.map(str::trim).filter(|v| !v.is_empty() && v.len() <= 256)`. -/
def vaultName (name : Option String) : Option String := (name.map trim).filter (Bounded 256 ·)

def createVault (config : Config) (userId : Int) (tokenHash : String) (fresh : Fresh) (v : Value) :
    Except String Request := do
  let r ← orReject (VaultCreate.fromValue v) "Invalid vault request"
  let name ← orReject (vaultName r.name) "Vault name is required"
  let version ← orReject (r.encryptionVersion.filter fun v => 0 ≤ v && v ≤ 3)
    "Unsupported encryption version"
  let credentials ← vaultCredentials fresh r.keyhash r.salt
  return .createVault userId tokenHash (newVault config fresh name version credentials)

def renameVault (userId : Int) (tokenHash : String) (v : Value) : Except String Request := do
  let r ← orReject (VaultRename.fromValue v) "Unable to rename vault"
  let id ← orReject r.vaultUid "Unable to rename vault"
  let name ← orReject (vaultName r.name) "Unable to rename vault"
  return .renameVault userId tokenHash id name

namespace Database

/-- `find_authorized_vault`, with the owner that the handler looks up next. -/
def findAuthorizedVault (db : Database) (userId : Int) (id : String) :
    Option (VaultRow × VaultAccess) := do
  let access ← db.vaultAccess userId id
  let vault ← db.vault? id
  return (vault, access)

def findOwnedVault (db : Database) (userId : Int) (id : String) : Option VaultRow :=
  db.vaults.find? fun v => v.id = id && v.ownerUserId = userId

end Database

def VaultAccess.isCollaborator : VaultAccess → Bool
  | .owner .. => false
  | .collaborator .. => true

/-- A managed vault gets its key hash on the first access that offers one; the handler then
compares what is bound with what was offered. -/
def accessVault (config : Config) (seen : Database) (userId : Int) (tokenHash : String)
    (v : Value) : Except String (Option Request) := do
  let r ← orReject (VaultAccessRequest.fromValue v) "Unable to access vault"
  let id ← orReject r.vaultUid "Unable to access vault"
  let (vault, access) ← orReject (seen.findAuthorizedVault userId id) "Unable to access vault"
  rejectIf (access.isCollaborator && !config.sharingAllowedForOwner vault.ownerUserId)
    "Sharing is unavailable"
  rejectIf (r.host ≠ some vault.host ∨ r.encryptionVersion ≠ some vault.encryptionVersion)
    "Unable to access vault"
  if vault.password.isSome && vault.keyhash.isNone then
    let requested ← orReject (r.keyhash.filter (Bounded 4096 ·)) "Unable to access vault"
    return some (.bindManagedKeyhash userId tokenHash vault.id requested)
  else
    rejectIf (r.keyhash ≠ vault.keyhash) "Unable to access vault"
    return none

def migrateVault (config : Config) (seen : Database) (userId : Int) (tokenHash : String)
    (fresh : Fresh) (v : Value) : Except String Request := do
  let r ← orReject (VaultMigrate.fromValue v) "Unable to migrate vault"
  let sourceId ← orReject r.vaultUid "Unable to migrate vault"
  rejectIf (r.encryptionVersion ≠ some 3) "Unsupported encryption version"
  let credentials ← vaultCredentials fresh r.keyhash r.salt
  let source ← orReject (seen.findOwnedVault userId sourceId) "Unable to migrate vault"
  rejectIf (3 ≤ source.encryptionVersion) "Vault already uses encryption version 3"
  return .migrateVault userId tokenHash sourceId (newVault config fresh source.name 3 credentials)

/-! ## The data plane -/

/-- `session.device` as `init` sets it. -/
def initDevice (v : Value) : String :=
  (bounded (((v.get "device").bind Value.asStr).getD "Unknown device") 256).getD "Unknown device"

theorem bounded_initDevice (v : Value) : Bounded 256 (initDevice v) := by
  unfold initDevice bounded
  split
  · assumption
  · decide

/-- What an authenticated connection keeps.  The device is one that `init` lets pass. -/
structure Session where
  tokenHash : String
  userId : Int
  vault : String
  device : String
  pending : Bool
  bounded_device : Bounded 256 device

/-- The session that an accepted `init` message begins. -/
def Session.init (tokenHash : String) (userId : Int) (vault : String) (v : Value) : Session :=
  { tokenHash := tokenHash, userId := userId, vault := vault, device := initDevice v,
    pending := false, bounded_device := bounded_initDevice v }

/-- `relatedpath` of a push: absent, `null` or a bounded string. -/
def pushRelatedpath (v : Value) : Option (Option String) :=
  match v.get "relatedpath" with
  | none | some .null => some none
  | some (.string value) => if value.utf8ByteSize ≤ 16384 then some (some value) else none
  | _ => none

/-- `expected_version` of a push: absent or a number that clients can represent. -/
def pushExpectedVersion (v : Value) : Option (Option Int) :=
  match v.get "expected_version" with
  | none => some none
  | some (.number value) =>
    ((Value.number value).asI64.filter jsSafeNonnegative).map some
  | _ => none

/-- The metadata of a push that `begin_push` finds valid. -/
def pushMetadata (config : Config) (session : Session) (v : Value) : Option NewRevision := do
  let path ← bounded (((v.get "path").bind Value.asStr).getD "") 16384
  let relatedpath ← pushRelatedpath v
  let extension ← ((v.get "extension").bind Value.asStr).filter fun x => x.utf8ByteSize ≤ 256
  let hash ← ((v.get "hash").bind Value.asStr).filter fun x => x.utf8ByteSize ≤ 4096
  let ctime ← ((v.get "ctime").bind Value.asI64).filter jsSafeNonnegative
  let mtime ← ((v.get "mtime").bind Value.asI64).filter jsSafeNonnegative
  let folder ← (v.get "folder").bind Value.asBool
  let deleted ← (v.get "deleted").bind Value.asBool
  let size ← (some (((v.get "size").bind Value.asI64).getD 0)).filter fun size =>
    0 ≤ size && size ≤ maxCiphertextSize config
  let expectedVersion ← pushExpectedVersion v
  let pieces ← (some (((v.get "pieces").bind Value.asI64).getD 0)).filter fun pieces =>
    0 ≤ pieces && pieces = (size + revisionPieceSize - 1) / revisionPieceSize
  return { vaultId := session.vault, path := path, relatedpath := relatedpath,
           extension := extension, hash := hash, ctime := ctime, mtime := mtime, folder := folder,
           deleted := deleted, size := size, pieces := pieces, device := session.device,
           userId := session.userId, expectedVersion := expectedVersion }

/-- `begin_push`, up to the point where metadata-only pushes commit and the others wait for
their bytes. -/
def beginPush (config : Config) (session : Session) (v : Value) : Except String NewRevision := do
  rejectIf session.pending "An upload is already in progress"
  let revision ← orReject (pushMetadata config session v) "Invalid push metadata"
  rejectIf (maxEventBytes < serializedNoticeSize revision) "Push metadata is too large"
  return revision

/-- What the checks of `begin_push` say of the revision that they let in. -/
structure ValidPush (config : Config) (session : Session) (v : Value) (r : NewRevision) :
    Prop where
  vaultId : r.vaultId = session.vault
  userId : r.userId = session.userId
  device : r.device = session.device
  path : bounded (((v.get "path").bind Value.asStr).getD "") 16384 = some r.path
  relatedpath : pushRelatedpath v = some r.relatedpath
  extension : r.extension.utf8ByteSize ≤ 256
  hash : r.hash.utf8ByteSize ≤ 4096
  ctime : jsSafeNonnegative r.ctime = true
  mtime : jsSafeNonnegative r.mtime = true
  size : 0 ≤ r.size ∧ r.size ≤ maxCiphertextSize config
  expectedVersion : pushExpectedVersion v = some r.expectedVersion
  pieces : r.pieces = (r.size + revisionPieceSize - 1) / revisionPieceSize

theorem validPush_of_pushMetadata {config : Config} {session : Session} {v : Value}
    {r : NewRevision} (h : pushMetadata config session v = some r) :
    ValidPush config session v r := by
  obtain ⟨path, hpath, h⟩ := Option.bind_eq_some_iff.mp h
  obtain ⟨relatedpath, hrelatedpath, h⟩ := Option.bind_eq_some_iff.mp h
  obtain ⟨extension, hextension, h⟩ := Option.bind_eq_some_iff.mp h
  obtain ⟨hash, hhash, h⟩ := Option.bind_eq_some_iff.mp h
  obtain ⟨ctime, hctime, h⟩ := Option.bind_eq_some_iff.mp h
  obtain ⟨mtime, hmtime, h⟩ := Option.bind_eq_some_iff.mp h
  obtain ⟨folder, -, h⟩ := Option.bind_eq_some_iff.mp h
  obtain ⟨deleted, -, h⟩ := Option.bind_eq_some_iff.mp h
  obtain ⟨size, hsize, h⟩ := Option.bind_eq_some_iff.mp h
  obtain ⟨expectedVersion, hexpected, h⟩ := Option.bind_eq_some_iff.mp h
  obtain ⟨pieces, hpieces, h⟩ := Option.bind_eq_some_iff.mp h
  obtain rfl := Option.some.inj h
  have hsize := (Option.filter_eq_some_iff.mp hsize).2
  have hpieces := (Option.filter_eq_some_iff.mp hpieces).2
  simp only [Bool.and_eq_true, decide_eq_true_eq] at hsize hpieces
  exact
    { vaultId := rfl
      userId := rfl
      device := rfl
      path := hpath
      relatedpath := hrelatedpath
      extension := of_decide_eq_true (Option.filter_eq_some_iff.mp hextension).2
      hash := of_decide_eq_true (Option.filter_eq_some_iff.mp hhash).2
      ctime := (Option.filter_eq_some_iff.mp hctime).2
      mtime := (Option.filter_eq_some_iff.mp hmtime).2
      size := hsize
      expectedVersion := hexpected
      pieces := hpieces.2 }

theorem beginPush_ok {config : Config} {session : Session} {v : Value} {r : NewRevision}
    (h : beginPush config session v = .ok r) :
    session.pending = false ∧ ValidPush config session v r ∧
      serializedNoticeSize r ≤ maxEventBytes := by
  simp only [beginPush, bind_eq_ok, rejectIf_eq_ok, orReject_eq_ok, exists_unit, pure_eq_ok,
    Bool.not_eq_true, not_lt] at h
  obtain ⟨hpending, r, hr, hsize, rfl⟩ := h
  exact ⟨hpending, validPush_of_pushMetadata hr, hsize⟩

/-- The commit of an accepted push; `file` is what was uploaded for it. -/
def pushRequest (config : Config) (session : Session) (revision : NewRevision) (file : Blob) :
    Request :=
  if revision.folder || revision.deleted || revision.pieces = 0 then
    .addEmptyRevision revision session.tokenHash config.storageQuotaBytes
      config.storageQuotaBytesPerOwner
  else
    .addFileRevision revision session.tokenHash file config.storageQuotaBytes
      config.storageQuotaBytesPerOwner

/-- `restore`; the reserved bytes are those of the uploads in flight. -/
def restore (config : Config) (session : Session) (reservedGlobal reservedOwner : Int) (v : Value) :
    Except String Request := do
  let uid ← orReject ((v.get "uid").bind Value.asI64) "Revision not found"
  return .restore session.userId session.tokenHash session.vault uid session.device
    (saturate (config.storageQuotaBytes - reservedGlobal))
    (saturate (config.storageQuotaBytesPerOwner - reservedOwner))

/-! ## Calls -/

/-- A message of a client that can put text into the database, with what the server adds to
it. -/
inductive Call where
  | createVault (userId : Int) (tokenHash : String) (fresh : Fresh) (v : Value)
  | accessVault (userId : Int) (tokenHash : String) (v : Value)
  | migrateVault (userId : Int) (tokenHash : String) (fresh : Fresh) (v : Value)
  | renameVault (userId : Int) (tokenHash : String) (v : Value)
  | push (session : Session) (v : Value) (file : Blob)
  | restore (session : Session) (reservedGlobal reservedOwner : Int) (v : Value)

/-- The request that a call leads to, if it is accepted and asks for one. -/
def Call.request (config : Config) (seen : Database) : Call → Except String (Option Request)
  | .createVault userId tokenHash fresh v =>
    some <$> Blackglass.createVault config userId tokenHash fresh v
  | .accessVault userId tokenHash v => Blackglass.accessVault config seen userId tokenHash v
  | .migrateVault userId tokenHash fresh v =>
    some <$> Blackglass.migrateVault config seen userId tokenHash fresh v
  | .renameVault userId tokenHash v => some <$> Blackglass.renameVault userId tokenHash v
  | .push session v file => do
    let revision ← beginPush config session v
    return some (pushRequest config session revision file)
  | .restore session reservedGlobal reservedOwner v =>
    some <$> Blackglass.restore config session reservedGlobal reservedOwner v

end Blackglass
