import Blackglass.Session

/-!
# Vaults: creation, renaming, key binding, deletion and migration

The control operations of `db.rs` on vault rows, each as the one transaction it is.
An operation that returns early without committing returns the database it was given;
an operation that fails rolls back, so nothing but the error comes out of it.

Each operation has one lemma `.._ok` that says what a successful call saw and what it
changed.
-/

namespace Blackglass

open Rows Outcome

/-- The row that `INSERT INTO vaults` makes of a `Vault`. -/
def Vault.toRow (vault : Vault) (userId : Int) : VaultRow :=
  { id := vault.id, name := vault.name, keyhash := vault.keyhash, salt := vault.salt,
    host := vault.host, region := vault.region, encryptionVersion := vault.encryptionVersion,
    size := vault.size, created := vault.created, password := vault.password, version := 0,
    ownerUserId := userId }

/-- `UPDATE memberships SET vault_id=? WHERE vault_id=? AND revoked_at IS NULL`, on one
row. -/
def MembershipRow.moved (sourceId replacementId : String) (m : MembershipRow) : MembershipRow :=
  if m.vaultId = sourceId && m.active then { m with vaultId := replacementId } else m

/-- `ORDER BY retired_at DESC,id DESC`. -/
def RetiredVaultRow.newerThan (a b : RetiredVaultRow) : Prop :=
  b.retiredAt < a.retiredAt ∨ (a.retiredAt = b.retiredAt ∧ b.id ≤ a.id)

instance : DecidableRel RetiredVaultRow.newerThan := fun a b => by
  unfold RetiredVaultRow.newerThan
  infer_instance

namespace Database

/-! ## Retired identities -/

/-- `DELETE FROM retired_vaults WHERE owner_user_id=? AND id IN (SELECT id .. ORDER BY
retired_at DESC,id DESC LIMIT -1 OFFSET ?)`: an owner keeps the newest markers. -/
@[simps]
def pruneRetiredVaults (db : Database) (ownerUserId keep : Int) : Database :=
  let doomed := ((db.retiredVaults.filter fun r => r.ownerUserId = ownerUserId).insertionSort
    RetiredVaultRow.newerThan).drop keep.toNat
  { db with retiredVaults := db.retiredVaults.filter fun r =>
      !(r.ownerUserId = ownerUserId && doomed.any fun d => d.id = r.id) }

/-- The markers after `retire_vault_identity`. -/
def withRetiredIdentity (db : Database) (vaultId : String) (ownerUserId retiredAt : Int) :
    Database :=
  (db.pruneRetiredVaults ownerUserId (maxRetiredVaultsPerOwner - 1)).withRetiredVault
    { id := vaultId, ownerUserId := ownerUserId, retiredAt := retiredAt }

def retireVaultIdentity (db : Database) (vaultId : String) (retiredAt : Int) :
    Except DbError Database := do
  let vault ← orReject (db.vault? vaultId) .queryReturnedNoRows
  let db := db.pruneRetiredVaults vault.ownerUserId (maxRetiredVaultsPerOwner - 1)
  rejectIf (maxRetiredVaults ≤ db.retiredVaults.length)
    (.bail "retired vault marker limit reached")
  db.replaceRetiredVault
    { id := vaultId, ownerUserId := vault.ownerUserId, retiredAt := retiredAt }

/-! ## Operations -/

def createVaultInternal (db : Database) (userId : Int) (tokenHash : Option String) (vault : Vault)
    (now : Int) : Except DbError Database := do
  db.authorizeAccountMutation tokenHash userId now
  rejectIf (maxVaults ≤ db.vaults.length) (.bail "vault limit reached")
  rejectIf (maxVaults ≤ (db.vaults.filter fun v => v.ownerUserId = userId).length)
    (.bail "vault limit reached")
  db.insertVault (vault.toRow userId)

/-- The key hash of a managed vault is written once, and read back. -/
def bindManagedKeyhashForSession (db : Database) (userId : Int) (tokenHash id keyhash : String)
    (now : Int) : Except DbError (Option String × Database) := do
  db.authorizeAccountMutation (some tokenHash) userId now
  let db := db.mapVaults fun v =>
    if v.id = id && v.ownerUserId = userId && v.password.isSome && v.keyhash.isNone then
      { v with keyhash := some keyhash }
    else v
  let bound := (db.vaults.find? fun v => v.id = id && v.ownerUserId = userId).bind (·.keyhash)
  return (bound, db)

def renameVaultForSession (db : Database) (userId : Int) (tokenHash id name : String) (now : Int) :
    Except DbError (Bool × Database) := do
  db.authorizeAccountMutation (some tokenHash) userId now
  let updated := (db.vaults.filter fun v => v.id = id && v.ownerUserId = userId).length = 1
  return (updated, db.mapVaults fun v =>
    if v.id = id && v.ownerUserId = userId then { v with name := name } else v)

def deleteVaultInternal (db : Database) (userId : Int) (tokenHash : Option String) (id : String)
    (t : Readings) : Except DbError (Bool × Database) := do
  db.authorizeAccountMutation tokenHash userId t.authorizedAt
  if db.ownsVault userId id then
    let db ← db.retireVaultIdentity id t.now
    let db ← db.deleteVaults fun v => v.id = id && v.ownerUserId = userId
    return (true, db)
  else return (false, db)

def migrateVaultInternal (db : Database) (userId : Int) (tokenHash : Option String)
    (sourceId : String) (replacement : Vault) (t : Readings) :
    Except DbError (Bool × Database) := do
  db.authorizeAccountMutation tokenHash userId t.authorizedAt
  if db.ownsVault userId sourceId then
    let db ← db.insertVault (replacement.toRow userId)
    let db := db.mapMemberships (.moved sourceId replacement.id)
    let db ← db.retireVaultIdentity sourceId t.now
    let db ← db.deleteVaults fun v => v.id = sourceId && v.ownerUserId = userId
    return (true, db)
  else return (false, db)

end Database

namespace MembershipRow

variable (sourceId replacementId : String) (m : MembershipRow)

@[simp] theorem moved_id : (m.moved sourceId replacementId).id = m.id := by
  unfold moved
  split <;> rfl

@[simp] theorem moved_userId : (m.moved sourceId replacementId).userId = m.userId := by
  unfold moved
  split <;> rfl

@[simp] theorem moved_invitedByUserId :
    (m.moved sourceId replacementId).invitedByUserId = m.invitedByUserId := by
  unfold moved
  split <;> rfl

@[simp] theorem moved_active : (m.moved sourceId replacementId).active = m.active := by
  unfold moved
  split <;> rfl

theorem moved_vaultId : (m.moved sourceId replacementId).vaultId =
    if m.vaultId = sourceId ∧ m.active = true then replacementId else m.vaultId := by
  unfold moved
  by_cases h : m.vaultId = sourceId ∧ m.active = true <;> simp [h]

end MembershipRow

/-! ## What the statements did -/

theorem insertVault_ok {db db' : Database} {row : VaultRow} (h : db.insertVault row = .ok db') :
    db.hasVault row.id = false ∧ db.hasUser row.ownerUserId = true ∧ db' = db.withVault row := by
  simp only [Database.insertVault, bind_eq_ok, rejectIf_eq_ok, exists_unit, pure_eq_ok,
    Bool.or_eq_true, Bool.not_eq_true', not_or, Bool.not_eq_true, Bool.not_eq_false] at h
  exact ⟨h.1.1, h.1.2, h.2.symm⟩

theorem deleteVaults_ok {db db' : Database} {p : VaultRow → Bool}
    (h : db.deleteVaults p = .ok db') : db' = db.withoutVaults p := by
  simp only [Database.deleteVaults, bind_eq_ok, rejectIf_eq_ok, exists_unit, pure_eq_ok] at h
  exact h.2.symm

theorem retireVaultIdentity_ok {db db' : Database} {vaultId : String} {retiredAt : Int}
    (h : db.retireVaultIdentity vaultId retiredAt = .ok db') :
    ∃ v ∈ db.vaults, v.id = vaultId ∧
      db' = db.withRetiredIdentity vaultId v.ownerUserId retiredAt := by
  simp only [Database.retireVaultIdentity, Database.replaceRetiredVault, bind_eq_ok,
    orReject_eq_ok, rejectIf_eq_ok, exists_unit, pure_eq_ok] at h
  obtain ⟨v, hv, -, -, rfl⟩ := h
  obtain ⟨hmem, hid⟩ := mem_of_vault? hv
  exact ⟨v, hmem, hid, rfl⟩

/-! ## What the operations did -/

section

variable {db db' : Database} {userId now : Int} {tokenHash : Option String} {t : Readings}

theorem createVaultInternal_ok {vault : Vault}
    (h : db.createVaultInternal userId tokenHash vault now = .ok db') :
    (∃ token, tokenHash = some token ∧ Authorized db token userId now) ∧
      (db.vaults.length : Int) < maxVaults ∧ db.hasVault vault.id = false ∧
      db' = db.withVault (vault.toRow userId) := by
  simp only [Database.createVaultInternal, bind_eq_ok, authorizeAccountMutation_ok, rejectIf_eq_ok,
    not_le, exists_unit] at h
  obtain ⟨hauth, hcount, -, hinsert⟩ := h
  obtain ⟨hid, -, rfl⟩ := insertVault_ok hinsert
  exact ⟨hauth, hcount, hid, rfl⟩

theorem bindManagedKeyhashForSession_ok {token id keyhash : String} {bound : Option String}
    (h : db.bindManagedKeyhashForSession userId token id keyhash now = .ok (bound, db')) :
    Authorized db token userId now ∧
      db' = db.mapVaults fun v =>
        if v.id = id && v.ownerUserId = userId && v.password.isSome && v.keyhash.isNone then
          { v with keyhash := some keyhash }
        else v := by
  simp only [Database.bindManagedKeyhashForSession, bind_eq_ok, authorizeAccountMutation_some,
    exists_unit, pure_eq_ok, Prod.mk.injEq] at h
  obtain ⟨hauth, -, rfl⟩ := h
  exact ⟨hauth, rfl⟩

theorem renameVaultForSession_ok {token id name : String} {updated : Bool}
    (h : db.renameVaultForSession userId token id name now = .ok (updated, db')) :
    Authorized db token userId now ∧
      db' = db.mapVaults fun v =>
        if v.id = id && v.ownerUserId = userId then { v with name := name } else v := by
  simp only [Database.renameVaultForSession, bind_eq_ok, authorizeAccountMutation_some,
    exists_unit, pure_eq_ok, Prod.mk.injEq] at h
  obtain ⟨hauth, -, rfl⟩ := h
  exact ⟨hauth, rfl⟩

theorem deleteVaultInternal_ok {id : String} {deleted : Bool}
    (h : db.deleteVaultInternal userId tokenHash id t = .ok (deleted, db')) :
    (∃ token, tokenHash = some token ∧ Authorized db token userId t.authorizedAt) ∧
      ((deleted = false ∧ db.ownsVault userId id = false ∧ db' = db) ∨
        (deleted = true ∧ db.ownsVault userId id = true ∧ ∃ v ∈ db.vaults, v.id = id ∧
          db' = (db.withRetiredIdentity id v.ownerUserId t.now).withoutVaults
            fun v => v.id = id && v.ownerUserId = userId)) := by
  simp only [Database.deleteVaultInternal, bind_eq_ok (x := Database.authorizeAccountMutation ..),
    authorizeAccountMutation_ok, exists_unit] at h
  obtain ⟨hauth, h⟩ := h
  refine ⟨hauth, ?_⟩
  cases howned : db.ownsVault userId id with
  | false =>
    simp only [howned, Bool.false_eq_true, if_false, pure_eq_ok, Prod.mk.injEq] at h
    exact .inl ⟨h.1.symm, rfl, h.2.symm⟩
  | true =>
    simp only [howned, if_true, bind_eq_ok, pure_eq_ok, Prod.mk.injEq] at h
    obtain ⟨db₁, hretire, db₂, hdelete, rfl, rfl⟩ := h
    obtain ⟨v, hv, hid, rfl⟩ := retireVaultIdentity_ok hretire
    exact .inr ⟨rfl, rfl, v, hv, hid, deleteVaults_ok hdelete⟩

theorem migrateVaultInternal_ok {sourceId : String} {replacement : Vault} {migrated : Bool}
    (h : db.migrateVaultInternal userId tokenHash sourceId replacement t = .ok (migrated, db')) :
    (∃ token, tokenHash = some token ∧ Authorized db token userId t.authorizedAt) ∧
      ((migrated = false ∧ db.ownsVault userId sourceId = false ∧ db' = db) ∨
        (migrated = true ∧ db.ownsVault userId sourceId = true ∧
          db.hasVault replacement.id = false ∧ ∃ v ∈ db.vaults, v.id = sourceId ∧
          db' = (((db.withVault (replacement.toRow userId)).mapMemberships
            (.moved sourceId replacement.id)).withRetiredIdentity sourceId v.ownerUserId
              t.now).withoutVaults
              fun v => v.id = sourceId && v.ownerUserId = userId)) := by
  simp only [Database.migrateVaultInternal, bind_eq_ok (x := Database.authorizeAccountMutation ..),
    authorizeAccountMutation_ok, exists_unit] at h
  obtain ⟨hauth, h⟩ := h
  refine ⟨hauth, ?_⟩
  cases howned : db.ownsVault userId sourceId with
  | false =>
    simp only [howned, Bool.false_eq_true, if_false, pure_eq_ok, Prod.mk.injEq] at h
    exact .inl ⟨h.1.symm, rfl, h.2.symm⟩
  | true =>
    simp only [howned, if_true, bind_eq_ok, pure_eq_ok, Prod.mk.injEq] at h
    obtain ⟨db₁, hinsert, db₂, hretire, db₃, hdelete, rfl, rfl⟩ := h
    obtain ⟨hid, -, rfl⟩ := insertVault_ok hinsert
    obtain ⟨v, hv, hsource, rfl⟩ := retireVaultIdentity_ok hretire
    have hold : v ∈ db.vaults := by
      rcases List.mem_append.mp hv with hv | hv
      · exact hv
      · -- the replacement has an id that no vault had
        rw [List.mem_singleton.mp hv] at hsource
        obtain ⟨w, hw, hwid, -⟩ := ownsVault_iff.mp howned
        exact absurd (hwid.trans hsource.symm) (hasVault_eq_false_iff.mp hid w hw)
    exact .inr ⟨rfl, rfl, hid, v, hold, hsource, deleteVaults_ok hdelete⟩

end

/-! ## The schema's constraints -/

namespace Constraints

variable {db : Database}

theorem withRetiredIdentity (h : Constraints db) {vaultId : String} {ownerUserId retiredAt : Int}
    (hown : db.hasUser ownerUserId = true) :
    Constraints (db.withRetiredIdentity vaultId ownerUserId retiredAt) :=
  (h.filterRetiredVaults _).withRetiredVault hown

/-- Active members move to a vault that nobody is a member of yet. -/
theorem moveMemberships (h : Constraints db) {sourceId replacementId : String}
    (hvault : db.hasVault replacementId = true)
    (hempty : ∀ m ∈ db.memberships, m.vaultId ≠ replacementId) :
    Constraints (db.mapMemberships (.moved sourceId replacementId)) := by
  refine { h with
    membershipId := ?_
    membershipActive := ?_
    membershipVault := ?_
    membershipUser := ?_
    membershipInviter := ?_ }
  · simpa [Function.comp_def] using h.membershipId
  · -- the pair of a moved row is the image of its old pair, and nobody had the new one
    have hmap : ((db.memberships.map (MembershipRow.moved sourceId replacementId)).filter
            (·.active)).map
          (fun m => (m.vaultId, m.userId)) =
        ((db.memberships.filter (·.active)).map fun m => (m.vaultId, m.userId)).map
          fun pair => if pair.1 = sourceId then (replacementId, pair.2) else pair := by
      simp only [List.filter_map, List.map_map, Function.comp_def, MembershipRow.moved_active]
      refine List.map_congr_left fun m hm => ?_
      have hm := (List.mem_filter.mp hm).2
      by_cases hs : m.vaultId = sourceId <;> simp [MembershipRow.moved_vaultId, hs, hm]
    rw [Database.mapMemberships_memberships, hmap]
    refine h.membershipActive.map_on ?_
    intro x hx y hy hxy
    obtain ⟨m, hm, rfl⟩ := List.mem_map.mp hx
    obtain ⟨n, hn, rfl⟩ := List.mem_map.mp hy
    have hm := hempty m (List.mem_of_mem_filter hm)
    have hn := hempty n (List.mem_of_mem_filter hn)
    by_cases hs : m.vaultId = sourceId <;> by_cases ht : n.vaultId = sourceId <;>
      simp_all [Prod.ext_iff]
  · intro m hm
    obtain ⟨n, hn, rfl⟩ := List.mem_map.mp hm
    rw [MembershipRow.moved_vaultId]
    split
    · exact hvault
    · exact h.membershipVault n hn
  · intro m hm
    obtain ⟨n, hn, rfl⟩ := List.mem_map.mp hm
    exact n.moved_userId sourceId replacementId ▸ h.membershipUser n hn
  · intro m hm
    obtain ⟨n, hn, rfl⟩ := List.mem_map.mp hm
    exact n.moved_invitedByUserId sourceId replacementId ▸ h.membershipInviter n hn

theorem createVaultInternal (h : Constraints db) {db' : Database} {userId now : Int}
    {tokenHash : Option String} {vault : Vault}
    (hok : db.createVaultInternal userId tokenHash vault now = .ok db') : Constraints db' := by
  obtain ⟨⟨_, -, hauth⟩, -, hid, rfl⟩ := createVaultInternal_ok hok
  exact h.withVault hid hauth.hasUser

theorem bindManagedKeyhashForSession (h : Constraints db) {db' : Database} {userId now : Int}
    {token id keyhash : String} {bound : Option String}
    (hok : db.bindManagedKeyhashForSession userId token id keyhash now = .ok (bound, db')) :
    Constraints db' := by
  obtain ⟨-, rfl⟩ := bindManagedKeyhashForSession_ok hok
  exact h.mapVaults (fun v => by split <;> rfl) (fun v => by split <;> rfl)

theorem renameVaultForSession (h : Constraints db) {db' : Database} {userId now : Int}
    {token id name : String} {updated : Bool}
    (hok : db.renameVaultForSession userId token id name now = .ok (updated, db')) :
    Constraints db' := by
  obtain ⟨-, rfl⟩ := renameVaultForSession_ok hok
  exact h.mapVaults (fun v => by split <;> rfl) (fun v => by split <;> rfl)

theorem deleteVaultInternal (h : Constraints db) {db' : Database} {userId : Int}
    {tokenHash : Option String} {id : String} {t : Readings} {deleted : Bool}
    (hok : db.deleteVaultInternal userId tokenHash id t = .ok (deleted, db')) :
    Constraints db' := by
  obtain ⟨-, ⟨-, -, rfl⟩ | ⟨-, -, v, hv, -, rfl⟩⟩ := deleteVaultInternal_ok hok
  · exact h
  · exact (h.withRetiredIdentity (h.vaultOwner v hv)).withoutVaults _

/-- A migration just before the old vault is deleted. -/
theorem withReplacement (h : Constraints db) {userId ownerUserId retiredAt : Int}
    {sourceId : String} {replacement : Vault} (hid : db.hasVault replacement.id = false)
    (huser : db.hasUser userId = true) (howner : db.hasUser ownerUserId = true) :
    Constraints (((db.withVault (replacement.toRow userId)).mapMemberships
      (.moved sourceId replacement.id)).withRetiredIdentity sourceId ownerUserId retiredAt) := by
  have hwith : Constraints (db.withVault (replacement.toRow userId)) := h.withVault hid huser
  have hmoved : Constraints ((db.withVault (replacement.toRow userId)).mapMemberships
      (.moved sourceId replacement.id)) := by
    refine hwith.moveMemberships ?_ ?_
    · exact hasVault_iff.mpr ⟨replacement.toRow userId, List.mem_append_right _ (by simp), rfl⟩
    · intro m hm hvault
      obtain ⟨w, hw, hwid⟩ := hasVault_iff.mp (h.membershipVault m hm)
      exact hasVault_eq_false_iff.mp hid w hw (hwid.trans hvault)
  exact hmoved.withRetiredIdentity howner

theorem migrateVaultInternal (h : Constraints db) {db' : Database} {userId : Int}
    {tokenHash : Option String} {sourceId : String} {replacement : Vault} {t : Readings}
    {migrated : Bool}
    (hok : db.migrateVaultInternal userId tokenHash sourceId replacement t = .ok (migrated, db')) :
    Constraints db' := by
  obtain ⟨⟨_, -, hauth⟩, ⟨-, -, rfl⟩ | ⟨-, -, hid, v, hv, -, rfl⟩⟩ := migrateVaultInternal_ok hok
  · exact h
  · exact (h.withReplacement hid hauth.hasUser (h.vaultOwner v hv)).withoutVaults _

end Constraints

end Blackglass
