import Blackglass.Revisions
import Blackglass.Vaults
import Blackglass.Verify

/-!
# Offline changes: recovery epochs and the purge of deleted history

What the offline commands of `db.rs` do to a database file.  Their connection has no
`TEMP` table, so there is no byte counter to keep.

A new recovery epoch gives every vault a new identity.  The identities are random and are
drawn again until they are new, so the model takes the list of those that were kept.
-/

namespace Blackglass

open Rows Outcome

/-- `UPDATE revisions SET vault_id=? WHERE vault_id=?`, on one row. -/
def RevisionRow.moved (oldId newId : String) (r : RevisionRow) : RevisionRow :=
  if r.vaultId = oldId then { r with vaultId := newId } else r

/-- What a vault is replaced by in a new epoch. -/
structure Replacement where
  oldId : String
  newId : String
  ownerUserId : Int
deriving DecidableEq

namespace Database

/-- The file as a connection sees it that does not serve. -/
@[simps]
def offline (db : Database) : Database := { db with runtimeStorageUsage := none }

@[simps]
def moveRevisions (db : Database) (oldId newId : String) : Database :=
  { db with revisions := db.revisions.map (.moved oldId newId) }

/-- `UPDATE revisions SET vault_id=? WHERE vault_id=?`. -/
def updateRevisionVaults (db : Database) (oldId newId : String) : Except DbError Database := do
  rejectIf (db.revisions.any (fun r => r.vaultId = oldId) && !db.hasVault newId) .constraint
  return db.moveRevisions oldId newId

/-- The statements of `rotate_recovery_epoch` for one vault: `INSERT .. SELECT` copies its row
under the new id. -/
def rotateVault (now : Int) (db : Database) (r : Replacement) : Except DbError Database := do
  let db ← db.replaceRetiredVault { id := r.oldId, ownerUserId := r.ownerUserId, retiredAt := now }
  let vault ← orReject (db.vault? r.oldId) .queryReturnedNoRows
  let db ← db.insertVault { vault with id := r.newId }
  let db ← db.updateRevisionVaults r.oldId r.newId
  db.deleteVaults fun v => v.id = r.oldId

/-- `SELECT id,owner_user_id FROM vaults ORDER BY id`, with the new identities. -/
def replacements (db : Database) (newIds : List String) : List Replacement :=
  List.zipWith (fun v newId => { oldId := v.id, newId := newId, ownerUserId := v.ownerUserId })
    (db.vaults.insertionSort fun a b => a.id ≤ b.id) newIds

/-- An owner's markers make room for the vaults of theirs that are replaced. -/
def makeRoom (replacements : List Replacement) (db : Database) (ownerUserId : Int) :
    Except DbError Database := do
  let replacementCount := (replacements.filter fun r => r.ownerUserId = ownerUserId).length
  rejectIf (maxRetiredVaultsPerOwner < replacementCount)
    (.bail "owner recovery set exceeds retired vault marker limit")
  return db.pruneRetiredVaults ownerUserId (maxRetiredVaultsPerOwner - replacementCount)

def rotateRecoveryEpoch (db : Database) (newIds : List String) (now : Int) :
    Except DbError (Nat × Database) := do
  let replacements := db.replacements newIds
  let db ← (replacements.map (·.ownerUserId)).dedup.foldlM (makeRoom replacements) db
  rejectIf (maxRetiredVaults < db.retiredVaults.length + replacements.length)
    (.bail "recovery would exceed the global retired vault marker limit")
  let db ← replacements.foldlM (rotateVault now) db
  return (replacements.length, { db with sessions := [] })

/-- The rows below a deleted head. -/
def deletedHistory (db : Database) (vault : String) (r : RevisionRow) : Bool :=
  r.vaultId = vault && db.revisions.any fun head =>
    head.uid ∈ db.headUids vault && head.deleted && head.path = r.path && head.uid ≠ r.uid

/-- `purge_deleted_history`, up to its commit; the database is verified once more after
that, which changes nothing. -/
def purgeDeletedHistory (phc : PhcParser) (db : Database) (vault : String) (now : Int) :
    Except DbError (Nat × Database) := do
  rejectIf (vault.utf8ByteSize = 0 ∨ 64 < vault.utf8ByteSize)
    (.bail "vault ID must be between 1 and 64 bytes")
  verifyConnection phc db now
  rejectIf (db.hasVault vault = false) (.bail "vault not found")
  let changed := (db.revisions.filter (db.deletedHistory vault)).length
  let db ← db.deleteRevisions (db.deletedHistory vault)
  let row ← orReject (db.vault? vault) .queryReturnedNoRows
  return (changed, db.refreshVault vault row.version)

/-! ## The change of a replacement -/

/-- The database after one vault has got its new identity. -/
def withRotatedVault (db : Database) (r : Replacement) (vault : VaultRow) (now : Int) : Database :=
  (((db.withRetiredVault
    { id := r.oldId, ownerUserId := r.ownerUserId, retiredAt := now }).withVault
      { vault with id := r.newId }).moveRevisions r.oldId r.newId).withoutVaults
      fun v => v.id = r.oldId

end Database

namespace RevisionRow

variable (oldId newId : String) (r : RevisionRow)

@[simp] theorem moved_uid : (r.moved oldId newId).uid = r.uid := by
  unfold moved
  split <;> rfl

@[simp] theorem moved_path : (r.moved oldId newId).path = r.path := by
  unfold moved
  split <;> rfl

@[simp] theorem moved_size : (r.moved oldId newId).size = r.size := by
  unfold moved
  split <;> rfl

@[simp] theorem moved_pieces : (r.moved oldId newId).pieces = r.pieces := by
  unfold moved
  split <;> rfl

@[simp] theorem moved_folder : (r.moved oldId newId).folder = r.folder := by
  unfold moved
  split <;> rfl

@[simp] theorem moved_deleted : (r.moved oldId newId).deleted = r.deleted := by
  unfold moved
  split <;> rfl

@[simp] theorem moved_content : (r.moved oldId newId).content = r.content := by
  unfold moved
  split <;> rfl

@[simp] theorem moved_userId : (r.moved oldId newId).userId = r.userId := by
  unfold moved
  split <;> rfl

theorem moved_vaultId :
    (r.moved oldId newId).vaultId = if r.vaultId = oldId then newId else r.vaultId := by
  unfold moved
  split <;> rfl

end RevisionRow

/-! ## What a replacement leaves -/

section

variable (db : Database) (r : Replacement) (v : VaultRow) (now : Int)

/-- When the old vault goes, all its revisions have moved. -/
theorem deletes_no_moved {s : RevisionRow} (hne : r.newId ≠ r.oldId) (vaults : List VaultRow) :
    (vaults.any fun w => w.id = r.oldId && w.id = (s.moved r.oldId r.newId).vaultId) = false := by
  rw [List.any_eq_false]
  intro w _ hw
  simp only [Bool.and_eq_true, decide_eq_true_eq] at hw
  rw [hw.1, RevisionRow.moved_vaultId] at hw
  split at hw
  · exact hne hw.2.symm
  · rename_i hold
    exact hold hw.2.symm

theorem withRotatedVault_revisions (hne : r.newId ≠ r.oldId) :
    (db.withRotatedVault r v now).revisions = db.revisions.map (.moved r.oldId r.newId) := by
  refine List.filter_eq_self.mpr fun s hs => ?_
  obtain ⟨s, -, rfl⟩ := List.mem_map.mp hs
  exact congrArg (!·) (deletes_no_moved r hne _)

theorem withRotatedVault_revisionContent (hne : r.newId ≠ r.oldId) :
    (db.withRotatedVault r v now).revisionContent = db.revisionContent := by
  refine List.filter_eq_self.mpr fun c _ => ?_
  rw [Bool.not_eq_true', List.any_eq_false]
  intro s hs hgone
  obtain ⟨s, -, rfl⟩ := List.mem_map.mp hs
  have hgone := (Bool.and_eq_true_iff.mp hgone).1
  exact Bool.noConfusion ((deletes_no_moved r hne _).symm.trans hgone)

end

/-! ## What the operations did -/

section

variable {db db' : Database} {now : Int}

theorem rotateVault_ok {r : Replacement} (h : Database.rotateVault now db r = .ok db') :
    db.hasUser r.ownerUserId = true ∧ ∃ v, db.vault? r.oldId = some v ∧
      db.hasVault r.newId = false ∧ db.hasUser v.ownerUserId = true ∧
      db' = db.withRotatedVault r v now := by
  simp only [Database.rotateVault, Database.replaceRetiredVault, Database.updateRevisionVaults,
    bind_eq_ok, orReject_eq_ok, rejectIf_eq_ok, exists_unit, pure_eq_ok, Bool.not_eq_true',
    Bool.not_eq_false] at h
  obtain ⟨_, ⟨howner, rfl⟩, v, hv, db₁, hinsert, db₂, ⟨-, rfl⟩, hdelete⟩ := h
  obtain ⟨hfresh, huser, rfl⟩ := insertVault_ok hinsert
  exact ⟨howner, v, hv, hfresh, huser, deleteVaults_ok hdelete⟩

theorem makeRoom_ok {rs : List Replacement} {ownerUserId : Int}
    (h : Database.makeRoom rs db ownerUserId = .ok db') :
    db' = db.pruneRetiredVaults ownerUserId
      (maxRetiredVaultsPerOwner - (rs.filter fun r => r.ownerUserId = ownerUserId).length) := by
  simp only [Database.makeRoom, bind_eq_ok, rejectIf_eq_ok, exists_unit, pure_eq_ok] at h
  exact h.2.symm

theorem rotateRecoveryEpoch_ok {newIds : List String} {n : Nat}
    (h : db.rotateRecoveryEpoch newIds now = .ok (n, db')) :
    ∃ db₁ db₂, ((db.replacements newIds).map (·.ownerUserId)).dedup.foldlM
        (Database.makeRoom (db.replacements newIds)) db = .ok db₁ ∧
      (db.replacements newIds).foldlM (Database.rotateVault now) db₁ = .ok db₂ ∧
      db' = { db₂ with sessions := [] } := by
  simp only [Database.rotateRecoveryEpoch, bind_eq_ok, rejectIf_eq_ok, exists_unit, pure_eq_ok,
    Prod.mk.injEq] at h
  obtain ⟨db₁, hroom, -, db₂, hrotate, -, rfl⟩ := h
  exact ⟨db₁, db₂, hroom, hrotate, rfl⟩

theorem purgeDeletedHistory_ok {phc : PhcParser} {vault : String} {n : Nat}
    (h : db.purgeDeletedHistory phc vault now = .ok (n, db')) :
    ∃ row, db.vault? vault = some row ∧
      db' = (db.withoutRevisions (db.deletedHistory vault)).refreshVault vault row.version := by
  simp only [Database.purgeDeletedHistory, bind_eq_ok, orReject_eq_ok, rejectIf_eq_ok, exists_unit,
    pure_eq_ok, Prod.mk.injEq] at h
  obtain ⟨-, -, -, db₁, hdelete, row, hrow, -, rfl⟩ := h
  rw [deleteRevisions_ok hdelete] at hrow ⊢
  exact ⟨row, hrow, rfl⟩

end

/-! ## The schema's constraints -/

namespace Constraints

variable {db : Database}

theorem moveRevisions (h : Constraints db) {oldId newId : String}
    (hnew : db.hasVault newId = true) : Constraints (db.moveRevisions oldId newId) :=
  { h with
    revisionUid := by
      simp only [Database.moveRevisions_revisions, List.map_map, Function.comp_def,
        RevisionRow.moved_uid]
      exact h.revisionUid
    revisionVault := by
      intro r hr
      obtain ⟨s, hs, rfl⟩ := List.mem_map.mp hr
      rw [RevisionRow.moved_vaultId]
      split
      · exact hnew
      · exact h.revisionVault s hs
    revisionUser := by
      intro r hr
      obtain ⟨s, hs, rfl⟩ := List.mem_map.mp hr
      rw [RevisionRow.moved_userId]
      exact h.revisionUser s hs
    contentRevision := by
      intro c hc
      obtain ⟨r, hr, huid⟩ := h.contentRevision c hc
      exact ⟨_, List.mem_map_of_mem hr, by rw [RevisionRow.moved_uid, huid]⟩ }

theorem pruneRetiredVaults (h : Constraints db) (ownerUserId keep : Int) :
    Constraints (db.pruneRetiredVaults ownerUserId keep) := h.filterRetiredVaults _

theorem withRotatedVault (h : Constraints db) {r : Replacement} {v : VaultRow} {now : Int}
    (howner : db.hasUser r.ownerUserId = true) (hfresh : db.hasVault r.newId = false)
    (huser : db.hasUser v.ownerUserId = true) : Constraints (db.withRotatedVault r v now) := by
  have hretired : Constraints (db.withRetiredVault
      { id := r.oldId, ownerUserId := r.ownerUserId, retiredAt := now }) :=
    h.withRetiredVault howner
  have hadded : Constraints ((db.withRetiredVault
      { id := r.oldId, ownerUserId := r.ownerUserId, retiredAt := now }).withVault
        { v with id := r.newId }) := hretired.withVault hfresh huser
  refine (hadded.moveRevisions ?_).withoutVaults _
  exact hasVault_iff.mpr ⟨{ v with id := r.newId }, List.mem_append_right _ (by simp), rfl⟩

theorem clearSessions (h : Constraints db) : Constraints { db with sessions := [] } :=
  { h with
    sessionToken := List.nodup_nil
    sessionUser := fun _ hs => absurd hs List.not_mem_nil }

theorem rotateRecoveryEpoch (h : Constraints db) {newIds : List String} {now : Int} {n : Nat}
    {db' : Database} (hok : db.rotateRecoveryEpoch newIds now = .ok (n, db')) :
    Constraints db' := by
  obtain ⟨db₁, db₂, hroom, hrotate, rfl⟩ := rotateRecoveryEpoch_ok hok
  have h₁ : Constraints db₁ := by
    refine foldlM_invariant (fun db owner _ db' hc hstep => ?_) h hroom
    rw [makeRoom_ok hstep]
    exact hc.pruneRetiredVaults _ _
  have h₂ : Constraints db₂ := by
    refine foldlM_invariant (fun db r _ db' hc hstep => ?_) h₁ hrotate
    obtain ⟨howner, v, -, hfresh, huser, rfl⟩ := rotateVault_ok hstep
    exact hc.withRotatedVault howner hfresh huser
  exact h₂.clearSessions

end Constraints

end Blackglass
