import Blackglass.Membership
import Blackglass.Revisions

/-!
# Requests

The mutations an online request can ask the database for, as one type, so that a run of
the server is a list of requests.  Requests of different connections interleave only
between transactions: the connection is behind a mutex, and every request below is one
transaction.  A request may be executed long after it was built, so it carries what its
handler captured (the user, the hash of the session's token, the metadata of a push) and
nothing of the database.
-/

namespace Blackglass

inductive Request where
  | createVault (userId : Int) (tokenHash : String) (vault : Vault)
  | bindManagedKeyhash (userId : Int) (tokenHash id keyhash : String)
  | renameVault (userId : Int) (tokenHash id name : String)
  | deleteVault (userId : Int) (tokenHash id : String)
  | migrateVault (userId : Int) (tokenHash sourceId : String) (replacement : Vault)
  | inviteCollaborator (ownerUserId : Int) (tokenHash vaultId targetEmail : String)
  | removeCollaborator (actingUserId : Int) (tokenHash vaultId : String) (shareUid : Int)
  | addEmptyRevision (revision : NewRevision) (tokenHash : String)
      (storageQuotaBytes ownerStorageQuotaBytes : Int)
  | addFileRevision (revision : NewRevision) (tokenHash : String) (file : Blob)
      (storageQuotaBytes ownerStorageQuotaBytes : Int)
  | restore (userId : Int) (tokenHash vault : String) (uid : Int) (device : String)
      (globalLimit ownerLimit : Int)
  | purge (userId : Int) (tokenHash vault : String)
deriving DecidableEq

/-- What a request that commits answers. -/
inductive Answer where
  | done
  | flag (value : Bool)
  | keyhash (bound : Option String)
  | share (item : VaultShareItem)
  | removed (userId : Option Int)
  | stored (revision : Revision)
  | restored (revision : Option Revision)
deriving DecidableEq

namespace Request

def userId : Request → Int
  | createVault userId .. | bindManagedKeyhash userId .. | renameVault userId ..
  | deleteVault userId .. | migrateVault userId .. | inviteCollaborator userId ..
  | removeCollaborator userId .. | restore userId .. | purge userId .. => userId
  | addEmptyRevision revision .. | addFileRevision revision .. => revision.userId

def tokenHash : Request → String
  | createVault _ tokenHash .. | bindManagedKeyhash _ tokenHash .. | renameVault _ tokenHash ..
  | deleteVault _ tokenHash .. | migrateVault _ tokenHash .. | inviteCollaborator _ tokenHash ..
  | removeCollaborator _ tokenHash .. | addEmptyRevision _ tokenHash ..
  | addFileRevision _ tokenHash .. | restore _ tokenHash .. | purge _ tokenHash .. => tokenHash

/-- The vault a request is on. -/
def vault? : Request → Option String
  | createVault .. => none
  | bindManagedKeyhash _ _ id _ | renameVault _ _ id _ | deleteVault _ _ id => some id
  | migrateVault _ _ sourceId _ => some sourceId
  | inviteCollaborator _ _ vaultId _ | removeCollaborator _ _ vaultId _ => some vaultId
  | addEmptyRevision revision .. | addFileRevision revision .. => some revision.vaultId
  | restore _ _ vault .. | purge _ _ vault => some vault

/-- Requests that add a revision. -/
def adds : Request → Bool
  | addEmptyRevision .. | addFileRevision .. | restore .. => true
  | _ => false

/-- The transaction of a request. -/
def execute (db : Database) (t : Readings) : Request → Except DbError (Answer × Database)
  | createVault userId tokenHash vault => do
    let db ← db.createVaultInternal userId (some tokenHash) vault t.authorizedAt
    return (.done, db)
  | bindManagedKeyhash userId tokenHash id keyhash => do
    let (bound, db) ← db.bindManagedKeyhashForSession userId tokenHash id keyhash t.authorizedAt
    return (.keyhash bound, db)
  | renameVault userId tokenHash id name => do
    let (updated, db) ← db.renameVaultForSession userId tokenHash id name t.authorizedAt
    return (.flag updated, db)
  | deleteVault userId tokenHash id => do
    let (deleted, db) ← db.deleteVaultInternal userId (some tokenHash) id t
    return (.flag deleted, db)
  | migrateVault userId tokenHash sourceId replacement => do
    let (migrated, db) ←
      db.migrateVaultInternal userId (some tokenHash) sourceId replacement t
    return (.flag migrated, db)
  | inviteCollaborator ownerUserId tokenHash vaultId targetEmail => do
    let (item, db) ← db.inviteCollaboratorForSession ownerUserId tokenHash vaultId targetEmail t
    return (.share item, db)
  | removeCollaborator actingUserId tokenHash vaultId shareUid => do
    let (removed, db) ←
      db.removeCollaboratorForSession actingUserId tokenHash vaultId shareUid t
    return (.removed removed, db)
  | addEmptyRevision revision tokenHash storageQuotaBytes ownerStorageQuotaBytes => do
    let (stored, db) ← db.addEmptyRevisionInternal revision (some tokenHash) storageQuotaBytes
      ownerStorageQuotaBytes t
    return (.stored stored, db)
  | addFileRevision revision tokenHash file storageQuotaBytes ownerStorageQuotaBytes => do
    let (stored, db) ← db.addFileRevisionInternal revision (some tokenHash) file
      storageQuotaBytes ownerStorageQuotaBytes t
    return (.stored stored, db)
  | restore userId tokenHash vault uid device globalLimit ownerLimit => do
    let (restored, db) ← db.restoreInternal userId (some tokenHash) vault uid device globalLimit
      ownerLimit t
    return (.restored restored, db)
  | purge userId tokenHash vault => do
    let db ← db.purgeInternal userId (some tokenHash) vault t.authorizedAt
    return (.done, db)

end Request

/-! ## The effect of a request -/

open Outcome

/-- What a committed request has done, one case for each operation: the operation's own
result is at hand for whoever needs more of it. -/
inductive Effect (db : Database) (t : Readings) : Request → Answer → Database → Prop where
  | createVault {userId tokenHash vault db'} :
      db.createVaultInternal userId (some tokenHash) vault t.authorizedAt = .ok db' →
      Effect db t (.createVault userId tokenHash vault) .done db'
  | bindManagedKeyhash {userId tokenHash id keyhash bound db'} :
      db.bindManagedKeyhashForSession userId tokenHash id keyhash t.authorizedAt =
        .ok (bound, db') →
      Effect db t (.bindManagedKeyhash userId tokenHash id keyhash) (.keyhash bound) db'
  | renameVault {userId tokenHash id name updated db'} :
      db.renameVaultForSession userId tokenHash id name t.authorizedAt = .ok (updated, db') →
      Effect db t (.renameVault userId tokenHash id name) (.flag updated) db'
  | deleteVault {userId tokenHash id deleted db'} :
      db.deleteVaultInternal userId (some tokenHash) id t = .ok (deleted, db') →
      Effect db t (.deleteVault userId tokenHash id) (.flag deleted) db'
  | migrateVault {userId tokenHash sourceId replacement migrated db'} :
      db.migrateVaultInternal userId (some tokenHash) sourceId replacement t =
        .ok (migrated, db') →
      Effect db t (.migrateVault userId tokenHash sourceId replacement) (.flag migrated) db'
  | inviteCollaborator {ownerUserId tokenHash vaultId targetEmail item db'} :
      db.inviteCollaboratorForSession ownerUserId tokenHash vaultId targetEmail t =
        .ok (item, db') →
      Effect db t (.inviteCollaborator ownerUserId tokenHash vaultId targetEmail) (.share item) db'
  | removeCollaborator {actingUserId tokenHash vaultId shareUid removed db'} :
      db.removeCollaboratorForSession actingUserId tokenHash vaultId shareUid t =
        .ok (removed, db') →
      Effect db t (.removeCollaborator actingUserId tokenHash vaultId shareUid) (.removed removed)
        db'
  | addEmptyRevision {revision tokenHash quota ownerQuota stored db'} :
      db.addEmptyRevisionInternal revision (some tokenHash) quota ownerQuota t =
        .ok (stored, db') →
      Effect db t (.addEmptyRevision revision tokenHash quota ownerQuota) (.stored stored) db'
  | addFileRevision {revision tokenHash file quota ownerQuota stored db'} :
      db.addFileRevisionInternal revision (some tokenHash) file quota ownerQuota t =
        .ok (stored, db') →
      Effect db t (.addFileRevision revision tokenHash file quota ownerQuota) (.stored stored) db'
  | restore {userId tokenHash vault uid device globalLimit ownerLimit restored db'} :
      db.restoreInternal userId (some tokenHash) vault uid device globalLimit ownerLimit t =
        .ok (restored, db') →
      Effect db t (.restore userId tokenHash vault uid device globalLimit ownerLimit)
        (.restored restored) db'
  | purge {userId tokenHash vault db'} :
      db.purgeInternal userId (some tokenHash) vault t.authorizedAt = .ok db' →
      Effect db t (.purge userId tokenHash vault) .done db'

theorem execute_ok {db db' : Database} {t : Readings} {request : Request} {answer : Answer}
    (h : request.execute db t = .ok (answer, db')) : Effect db t request answer db' := by
  cases request <;>
    simp only [Request.execute, bind_eq_ok, pure_eq_ok, Prod.exists, Prod.mk.injEq] at h
  case createVault | purge =>
    obtain ⟨_, h, rfl, rfl⟩ := h
    constructor
    exact h
  all_goals
    obtain ⟨_, _, h, rfl, rfl⟩ := h
    constructor
    exact h

/-- What a committed request has written: the requests that find nothing to do are one case, and
so are those that commit a revision. -/
inductive Written (db : Database) (t : Readings) : Request → Database → Prop where
  | same {request} : Written db t request db
  | created {userId tokenHash vault} : db.hasVault vault.id = false →
      Written db t (.createVault userId tokenHash vault) (db.withVault (vault.toRow userId))
  | bound {userId tokenHash id keyhash} :
      Written db t (.bindManagedKeyhash userId tokenHash id keyhash)
        (db.mapVaults fun v =>
          if v.id = id && v.ownerUserId = userId && v.password.isSome && v.keyhash.isNone then
            { v with keyhash := some keyhash }
          else v)
  | renamed {userId tokenHash id name} :
      Written db t (.renameVault userId tokenHash id name)
        (db.mapVaults fun v =>
          if v.id = id && v.ownerUserId = userId then { v with name := name } else v)
  | deleted {userId tokenHash id v} : v ∈ db.vaults →
      Written db t (.deleteVault userId tokenHash id)
        ((db.withRetiredIdentity id v.ownerUserId t.now).withoutVaults
          fun v => v.id = id && v.ownerUserId = userId)
  | migrated {userId tokenHash sourceId replacement v} : db.hasUser userId = true →
      db.ownsVault userId sourceId = true → db.hasVault replacement.id = false →
      v ∈ db.vaults → v.id = sourceId →
      Written db t (.migrateVault userId tokenHash sourceId replacement)
        ((((db.withVault (replacement.toRow userId)).mapMemberships
          (.moved sourceId replacement.id)).withRetiredIdentity sourceId v.ownerUserId
            t.now).withoutVaults fun v => v.id = sourceId && v.ownerUserId = userId)
  | invited {userId tokenHash vaultId email target} : db.ownsVault userId vaultId = true →
      db.invitee email = some target → target.id ≠ userId →
      ((db.activeMemberships vaultId).length : Int) < maxActiveCollaboratorsPerVault →
      ((db.pruneRevokedMemberships vaultId).memberships.length : Int) < maxMemberships →
      (db.sequence "memberships").getD 0 < maxJsSafeInteger →
      Written db t (.inviteCollaborator userId tokenHash vaultId email)
        ((db.pruneRevokedMemberships vaultId).withMembership
          (invitation vaultId target.id userId t.now))
  | removed {userId tokenHash m} : m ∈ db.memberships → m.active = true →
      Written db t (.removeCollaborator userId tokenHash m.vaultId m.id)
        (db.mapMemberships (.revoked m.id m.vaultId t.now))
  | committed {request row content} : request.adds = true → request.vault? = some row.vaultId →
      Written db t request (db.commitRevision row content)
  | purged {userId tokenHash vault version} :
      Written db t (.purge userId tokenHash vault)
        ((db.withoutRevisions (db.superseded vault)).refreshVault vault version)

theorem Effect.written {db db' : Database} {t : Readings} {request : Request} {answer : Answer}
    (h : Effect db t request answer db') (hc : Constraints db) : Written db t request db' := by
  cases h with
  | createVault hok =>
    obtain ⟨-, -, hfresh, rfl⟩ := createVaultInternal_ok hok
    exact .created hfresh
  | bindManagedKeyhash hok =>
    obtain ⟨-, rfl⟩ := bindManagedKeyhashForSession_ok hok
    exact .bound
  | renameVault hok =>
    obtain ⟨-, rfl⟩ := renameVaultForSession_ok hok
    exact .renamed
  | deleteVault hok =>
    obtain ⟨-, ⟨-, -, rfl⟩ | ⟨-, -, v, hv, -, rfl⟩⟩ := deleteVaultInternal_ok hok
    · exact .same
    · exact .deleted hv
  | migrateVault hok =>
    obtain ⟨⟨_, -, hauth⟩, ⟨-, -, rfl⟩ | ⟨-, howned, hfresh, v, hv, hid, rfl⟩⟩ :=
      migrateVaultInternal_ok hok
    · exact .same
    · exact .migrated hauth.hasUser howned hfresh hv hid
  | inviteCollaborator hok =>
    obtain ⟨-, howned, ⟨-, -, -, -, -, rfl⟩ |
      ⟨target, -, htarget, hne, hroom, htotal, hseq, -, -, rfl⟩⟩ :=
      inviteCollaboratorForSession_ok hok
    · exact .same
    · exact .invited howned htarget hne hroom htotal hseq
  | removeCollaborator hok =>
    obtain ⟨-, ⟨-, rfl⟩ | ⟨m, hm, -, -, rfl, rfl, hactive, -, -, -, rfl⟩⟩ :=
      removeCollaboratorForSession_ok hok
    · exact .same
    · exact .removed hm hactive
  | addEmptyRevision hok =>
    obtain ⟨-, -, -, -, -, rfl⟩ := addEmptyRevisionInternal_ok hok
    exact .committed rfl rfl
  | addFileRevision hok =>
    obtain ⟨-, -, -, -, -, -, -, -, rfl⟩ := addFileRevisionInternal_ok hok
    exact .committed rfl rfl
  | restore hok =>
    obtain ⟨-, -, rfl⟩ | ⟨target, source, content, hr⟩ := restoreInternal_ok hc hok
    · exact .same
    · rw [hr.result]
      exact .committed rfl (congrArg some hr.source_vault.symm)
  | purge hok =>
    obtain ⟨-, -, row, -, rfl⟩ := purgeInternal_ok hok
    exact .purged

/-- Every request keeps the schema's constraints. -/
theorem Effect.constraints {db db' : Database} {t : Readings} {request : Request} {answer : Answer}
    (h : Effect db t request answer db') (hc : Constraints db) : Constraints db' := by
  cases h with
  | createVault h => exact hc.createVaultInternal h
  | bindManagedKeyhash h => exact hc.bindManagedKeyhashForSession h
  | renameVault h => exact hc.renameVaultForSession h
  | deleteVault h => exact hc.deleteVaultInternal h
  | migrateVault h => exact hc.migrateVaultInternal h
  | inviteCollaborator h => exact hc.inviteCollaboratorForSession h
  | removeCollaborator h => exact hc.removeCollaboratorForSession h
  | addEmptyRevision h => exact hc.addEmptyRevisionInternal h
  | addFileRevision h => exact hc.addFileRevisionInternal h
  | restore h => exact hc.restoreInternal h
  | purge h => exact hc.purgeInternal h

/-! ## Runs -/

/-- One request on a stored database, with the clock readings it made: it commits, or it
fails and the transaction is rolled back. -/
inductive Store.Step (s : Store) : Request × Readings → Store → Prop where
  | commit {request t answer s'} :
      request.execute s.db t = .ok (answer, s'.db) → Store.Step s (request, t) s'
  | rollback {request t error} :
      request.execute s.db t = .error error → Store.Step s (request, t) s

/-- A request that can commit commits. -/
theorem Store.Step.db_eq {s s' : Store} {request : Request} {t : Readings} {answer : Answer}
    {db' : Database} (h : s.Step (request, t) s')
    (hok : request.execute s.db t = .ok (answer, db')) : s'.db = db' := by
  cases h with
  | commit hcommit => exact (Prod.mk.inj (Except.ok.inj (hcommit.symm.trans hok))).2
  | rollback herror => cases herror.symm.trans hok

/-- The transaction of a request, on a stored database. -/
def Store.execute (s : Store) (request : Request) (t : Readings) :
    Except DbError (Answer × Store) :=
  match h : request.execute s.db t with
  | .ok (answer, db) => .ok (answer, ⟨db, (execute_ok h).constraints s.constraints⟩)
  | .error error => .error error

theorem Store.effect_of_execute {s s' : Store} {request : Request} {t : Readings} {answer : Answer}
    (h : s.execute request t = .ok (answer, s')) : Effect s.db t request answer s'.db := by
  unfold Store.execute at h
  split at h
  · rename_i hok
    cases h
    exact execute_ok hok
  · cases h

/-- The state after a request. -/
def Store.next (s : Store) (request : Request) (t : Readings) : Store :=
  match h : request.execute s.db t with
  | .ok (_, db) => ⟨db, (execute_ok h).constraints s.constraints⟩
  | .error _ => s

/-- A request that fails leaves everything as it was. -/
theorem Store.next_of_error {s : Store} {request : Request} {t : Readings} {error : DbError}
    (h : request.execute s.db t = .error error) : s.next request t = s := by
  unfold Store.next
  split
  · rename_i hok
    rw [h] at hok
    cases hok
  · rfl

/-- Every request can be executed in every state. -/
theorem Store.step_next (s : Store) (request : Request) (t : Readings) :
    s.Step (request, t) (s.next request t) := by
  unfold Store.next
  split
  · rename_i h
    exact .commit h
  · rename_i h
    exact .rollback h

end Blackglass
