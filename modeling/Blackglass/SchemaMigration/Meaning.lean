import Blackglass.Epoch.Renaming
import Blackglass.SchemaMigration

/-!
# A schema migration keeps the meaning of a database

What a migrated database has in common with its source (`MeaningKept`), up to the two things a
migration is meant to add: an owner for the rows of a version that knew only one user, and new
vault identities for a version whose clients could not tell a restored server.
-/

namespace Blackglass

open Rows Outcome

/-! ## What is kept -/

/-- Before version 5 there is one user, who gets the id 1. -/
def ownerAfter (version owner : Int) : Int := if version < 5 then 1 else owner

def VaultRow.migrated (version : Int) (f : String → String) (v : VaultRow) : VaultRow :=
  { v with id := f v.id, ownerUserId := ownerAfter version v.ownerUserId }

def RevisionRow.migrated (version : Int) (f : String → String) (r : RevisionRow) : RevisionRow :=
  { r with vaultId := f r.vaultId, userId := ownerAfter version r.userId }

def RetiredVaultRow.migrated (version : Int) (r : RetiredVaultRow) : RetiredVaultRow :=
  { r with ownerUserId := ownerAfter version r.ownerUserId }

/-- A user without the column that version 7 adds. -/
def UserRow.withoutRole (u : UserRow) : UserRow := { u with role := .user }

/-- The target has the users of the source, or the first one if the source has no users yet. -/
structure AccountsKept (version : Int) (initialUser : Option InitialUser)
    (source target : Database) : Prop where
  users : 5 ≤ version → target.users.map (·.withoutRole) = source.users.map (·.withoutRole)
  firstUser : version < 5 → ∃ user now, initialUser = some user ∧
    target.users.map (·.withoutRole) = [user.toRow now]
  /-- The user with the lowest id is the one administrator. -/
  administrator : ∃ admin ∈ target.users, (∀ u ∈ target.users, admin.id ≤ u.id) ∧
    ∀ u ∈ target.users, u.role = .admin ↔ u = admin

/-- The target holds what the source holds, under the vault ids that `f` gives.  A table that the
version of the source does not have yet is empty in the target, and so are the sessions. -/
structure MeaningKept (version : Int) (initialUser : Option InitialUser) (f : String → String)
    (source target : Database) : Prop extends AccountsKept version initialUser source target where
  vaultIds : Set.BijOn f { id | source.hasVault id = true } { id | target.hasVault id = true }
  sameIds : 3 ≤ version → f = id
  vaults : target.vaults.Perm (source.vaults.map (.migrated version f))
  revisions : target.revisions = source.revisions.map (.migrated version f)
  revisionContent :
    target.revisionContent = if 2 ≤ version then source.revisionContent else []
  heads : ∀ id, source.hasVault id = true → target.headUids (f id) = source.headUids id ∧
    target.maxUidOf (f id) = source.maxUidOf id ∧ target.liveSize (f id) = source.liveSize id
  /-- Old identities become markers where there are new ones. -/
  oldIds : version < 3 → ∀ id, (source.hasVault id = true ↔ ∃ r ∈ target.retiredVaults, r.id = id) ∧
    (source.hasVault id = true → target.hasVault id = false)
  markers : 3 ≤ version → target.retiredVaults =
    if 4 ≤ version then source.retiredVaults.map (.migrated version) else []
  memberships : target.memberships = if version = 6 then source.memberships else []
  sessions : target.sessions = []

/-! ## Up to version 7 -/

section

variable {phc : PhcParser} {db source migrated target : Database}
  {initialUser : Option InitialUser} {newIds : List String} {t : MigrationReadings}
  {version : Int} {user : InitialUser} {clock : Int → StepReadings} {n : Nat}

theorem vaults_upgraded : (db.upgraded user clock version n).vaults =
    if version < 5 ∧ 5 ≤ version + n then db.vaults.map fun v => { v with ownerUserId := 1 }
    else db.vaults := by
  refine upgraded_part (·.vaults) _ (fun _ => rfl) fun v _ _ hv db s => ?_
  rw [Database.upgrade, if_neg hv]
  split_ifs <;> rfl

theorem revisions_upgraded : (db.upgraded user clock version n).revisions =
    if version < 5 ∧ 5 ≤ version + n then db.revisions.map fun r => { r with userId := 1 }
    else db.revisions := by
  refine upgraded_part (·.revisions) _ (fun _ => rfl) fun v _ _ hv db s => ?_
  rw [Database.upgrade, if_neg hv]
  split_ifs <;> rfl

theorem revisionContent_upgraded : (db.upgraded user clock version n).revisionContent =
    if version < 2 ∧ 2 ≤ version + n then [] else db.revisionContent := by
  refine upgraded_part (·.revisionContent) (fun _ => []) (fun _ => rfl) fun v _ _ hv db s => ?_
  unfold Database.upgrade
  split_ifs <;> rfl

theorem memberships_upgraded : (db.upgraded user clock version n).memberships =
    if version < 6 ∧ 6 ≤ version + n then [] else db.memberships := by
  refine upgraded_part (·.memberships) (fun _ => []) (fun _ => rfl) fun v _ _ hv db s => ?_
  unfold Database.upgrade
  split_ifs <;> rfl

/-- From version 4 on, only version 5 changes the markers. -/
theorem retiredVaults_upgraded (h₄ : 4 ≤ version) :
    (db.upgraded user clock version n).retiredVaults =
      if version < 5 ∧ 5 ≤ version + n then
        db.retiredVaults.map fun r => { r with ownerUserId := 1 }
      else db.retiredVaults := by
  refine upgraded_part (·.retiredVaults) _ (fun _ => rfl) fun v hlt _ hv db s => ?_
  have hne : v ≠ 4 := by omega
  unfold Database.upgrade
  split_ifs <;> first | rfl | contradiction

/-- Before version 4 there are none. -/
theorem retiredVaults_upgraded_of_lt (h₄ : version < 4) (hn : 4 ≤ version + n) :
    (db.upgraded user clock version n).retiredVaults = [] := by
  obtain ⟨m, hm⟩ : ∃ m : Nat, version + m = 4 := ⟨(4 - version).toNat, by omega⟩
  obtain ⟨k, rfl⟩ : ∃ k, n = m + k := ⟨n - m, by omega⟩
  have hnone : (db.upgraded user clock version m).retiredVaults =
      if version < 4 ∧ 4 ≤ version + m then [] else db.retiredVaults := by
    refine upgraded_part (·.retiredVaults) (fun _ => []) (fun _ => rfl) fun v _ hle hv db s => ?_
    have hne : v ≠ 5 := by omega
    unfold Database.upgrade
    split_ifs <;> first | rfl | contradiction
  rw [if_pos ⟨h₄, hm.ge⟩] at hnone
  rw [upgraded_add, hm, retiredVaults_upgraded le_rfl, hnone]
  split_ifs <;> rfl

/-- The users before they are given roles. -/
theorem users_upgraded (hn : version + n ≤ 6) : (db.upgraded user clock version n).users =
    if version < 5 ∧ 5 ≤ version + n then [user.toRow (clock 5).appliedAt] else db.users := by
  refine upgraded_part (·.users) (fun _ => [user.toRow (clock 5).appliedAt]) (fun _ => rfl)
    fun v _ hle hv db s => ?_
  have hne : v ≠ 7 := by omega
  unfold Database.upgrade
  split_ifs <;> first | rfl | contradiction

/-- The last version is applied to a database of version 6. -/
theorem upgraded_last (h₁ : 1 ≤ version) (h₇ : version < 7) :
    db.upgraded user clock version (7 - version.toNat) =
      (db.upgraded user clock version (6 - version.toNat)).upgrade user 7 (clock 7) := by
  have hcount : 7 - version.toNat = 6 - version.toNat + 1 := by omega
  have hversion : version + (6 - version.toNat : Nat) + 1 = 7 := by omega
  rw [hcount, Database.upgraded, hversion]

end

/-! ## What is counted for a vault -/

section

variable {source target : Database} {g : RevisionRow → RevisionRow} {id : String}

theorem revisionsOf_of_map (h : target.revisions = source.revisions.map g)
    (hvault : ∀ r, (g r).vaultId = r.vaultId) :
    target.revisionsOf id = (source.revisionsOf id).map g := by
  unfold Database.revisionsOf
  rw [h, List.filter_map]
  refine congrArg _ (List.filter_congr fun r _ => ?_)
  rw [Function.comp_apply, hvault]

/-- An update of columns that heads and sizes do not depend on. -/
theorem heads_of_map (h : target.revisions = source.revisions.map g)
    (hg : ∀ r, (g r).vaultId = r.vaultId ∧ (g r).uid = r.uid ∧ (g r).path = r.path ∧
      (g r).size = r.size ∧ (g r).deleted = r.deleted ∧ (g r).folder = r.folder) :
    target.headUids id = source.headUids id ∧ target.maxUidOf id = source.maxUidOf id ∧
      target.liveSize id = source.liveSize id := by
  have hof : target.revisionsOf id = (source.revisionsOf id).map g :=
    revisionsOf_of_map h fun r => (hg r).1
  have huid : (fun r => (g r).uid) = (·.uid) := funext fun r => (hg r).2.1
  have hpath : (fun r => (g r).path) = (·.path) := funext fun r => (hg r).2.2.1
  refine ⟨?_, ?_, ?_⟩
  · show groupMax _ _ (target.revisionsOf id) = groupMax _ _ (source.revisionsOf id)
    rw [hof, groupMax_map]
    simp only [Function.comp_def, huid, hpath]
  · show maxOr0 ((target.revisionsOf id).map _) = maxOr0 ((source.revisionsOf id).map _)
    rw [hof, List.map_map]
    simp only [Function.comp_def, huid]
  · rw [liveSize_eq, liveSize_eq, hof]
    exact liveSizeOf_map (fun r => (hg r).2.1) (fun r => (hg r).2.2.1) (fun r => (hg r).2.2.2.1)
      (fun r => (hg r).2.2.2.2.1) fun r => (hg r).2.2.2.2.2

end

/-! ## After the command -/

section

variable {phc : PhcParser} {source migrated target : Database}
  {initialUser : Option InitialUser} {candidates newIds : List String} {t : MigrationReadings}
  {version : Int} {user : InitialUser}

/-- What all versions together have made of the rows of a source. -/
structure Upgraded (version : Int) (source migrated : Database) : Prop where
  vaults : migrated.vaults = source.vaults.map (.migrated version id)
  revisions : migrated.revisions = source.revisions.map (.migrated version id)
  revisionContent :
    migrated.revisionContent = if 2 ≤ version then source.revisionContent else []
  retiredVaults : migrated.retiredVaults =
    if 4 ≤ version then source.retiredVaults.map (.migrated version) else []
  memberships : migrated.memberships = if version = 6 then source.memberships else []
  sessions : migrated.sessions = []

/-- The rows of a table that got an owner column with version 5. -/
theorem map_ownerAfter {ρ : Type*} (owned : Int → ρ → ρ) (owner : ρ → Int)
    (hself : ∀ r, owned (owner r) r = r) (rows : List ρ) :
    (if version < 5 ∧ (5 : Int) ≤ 7 then rows.map (owned 1) else rows) =
      rows.map fun r => owned (ownerAfter version (owner r)) r := by
  by_cases h₅ : version < 5
  · simp [ownerAfter, h₅]
  · simp [ownerAfter, h₅, hself]

theorem upgraded_to_last {clock : Int → StepReadings} (h₁ : 1 ≤ version) (h₇ : version < 7) :
    Upgraded version source
      (source.offline.upgraded user clock version (7 - version.toNat)) := by
  have hlast : version + (7 - version.toNat : Nat) = 7 := by omega
  refine ⟨?_, ?_, ?_, ?_, ?_, ?_⟩
  · rw [vaults_upgraded, hlast]
    exact map_ownerAfter (fun owner v => { v with ownerUserId := owner }) (·.ownerUserId)
      (fun _ => rfl) source.vaults
  · rw [revisions_upgraded, hlast]
    exact map_ownerAfter (fun owner r => { r with userId := owner }) (·.userId)
      (fun _ => rfl) source.revisions
  · rw [revisionContent_upgraded, hlast]
    by_cases h₂ : version < 2 <;> simp [h₂]
  · by_cases h₄ : version < 4
    · rw [retiredVaults_upgraded_of_lt h₄ (by omega), if_neg (by omega)]
    · rw [retiredVaults_upgraded (by omega), hlast, if_pos (by omega : 4 ≤ version)]
      exact map_ownerAfter (fun owner r => { r with ownerUserId := owner }) (·.ownerUserId)
        (fun _ => rfl) source.retiredVaults
  · rw [memberships_upgraded, hlast]
    by_cases h₆ : version = 6
    · simp [h₆]
    · rw [if_pos (by omega), if_neg h₆]
  · rw [upgraded_last h₁ h₇]
    rfl

theorem Migrated.upgraded
    (h : Migrated phc source initialUser newIds t version user migrated target) :
    Upgraded version source migrated := by
  rw [h.result]
  exact upgraded_to_last h.version_pos h.version_lt

/-- The users are those of the source, or the first one, with their roles. -/
theorem Migrated.users
    (h : Migrated phc source initialUser newIds t version user migrated target) :
    ∃ base : List UserRow,
      base = (if version < 5 then [user.toRow (t.steps 5).appliedAt] else source.users) ∧
      migrated.users = base.map fun u =>
        { u with role := if (base.map (·.id)).min? = some u.id then .admin else .user } := by
  have h₁ := h.version_pos
  have h₇ := h.version_lt
  refine ⟨_, ?_, by rw [h.result, upgraded_last h₁ h₇]; rfl⟩
  rw [users_upgraded (by omega)]
  exact if_congr (by omega) rfl rfl

/-- There is an administrator, so there is a lowest id, and it is the administrator's. -/
theorem Migrated.administrator (hc : Constraints migrated)
    (h : Migrated phc source initialUser newIds t version user migrated target) :
    ∃ admin ∈ migrated.users, (∀ u ∈ migrated.users, admin.id ≤ u.id) ∧
      ∀ u ∈ migrated.users, u.role = .admin ↔ u = admin := by
  obtain ⟨base, -, husers⟩ := h.users
  have hadmin : ∀ u ∈ migrated.users, u.role = .admin → (base.map (·.id)).min? = some u.id := by
    intro u hu hrole
    rw [husers] at hu
    obtain ⟨w, -, rfl⟩ := List.mem_map.mp hu
    by_contra hnot
    rw [if_neg hnot] at hrole
    cases hrole
  obtain ⟨admin, hmem, hrole⟩ := (h.verified_migrated.v7 le_rfl).administrator
  have hleast := List.min?_eq_some_iff.mp (hadmin admin hmem hrole)
  refine ⟨admin, hmem, fun u hu => hleast.2 u.id ?_, fun u hu => ⟨fun hu' => ?_, ?_⟩⟩
  · rw [husers] at hu
    obtain ⟨w, hw, rfl⟩ := List.mem_map.mp hu
    exact List.mem_map.mpr ⟨w, hw, rfl⟩
  · have hid := (hadmin u hu hu').symm.trans (hadmin admin hmem hrole)
    exact List.inj_on_of_nodup_map hc.userId hu hmem (Option.some.inj hid)
  · rintro rfl
    exact hrole

theorem Migrated.accountsKept (hc : Constraints migrated)
    (h : Migrated phc source initialUser newIds t version user migrated target) :
    AccountsKept version initialUser source migrated := by
  obtain ⟨base, hbase, husers⟩ := h.users
  have hroles : migrated.users.map (·.withoutRole) = base.map (·.withoutRole) := by
    rw [husers, List.map_map]
    rfl
  refine ⟨fun h₅ => ?_, fun h₅ => ⟨user, (t.steps 5).appliedAt, h.owner h₅, ?_⟩, h.administrator hc⟩
  · rw [hroles, hbase, if_neg (by omega)]
  · rw [hroles, hbase, if_pos h₅]
    rfl

namespace Upgraded

theorem hasVault (h : Upgraded version source migrated) (id : String) :
    migrated.hasVault id = source.hasVault id := by
  rw [Database.hasVault, h.vaults, List.any_map]
  rfl

theorem heads (h : Upgraded version source migrated) (id : String) :
    migrated.headUids id = source.headUids id ∧ migrated.maxUidOf id = source.maxUidOf id ∧
      migrated.liveSize id = source.liveSize id :=
  heads_of_map h.revisions fun _ => ⟨rfl, rfl, rfl, rfl, rfl, rfl⟩

/-- From version 3 on the identities stay. -/
theorem meaningKept (h : Upgraded version source migrated) (h₃ : 3 ≤ version)
    (haccounts : AccountsKept version initialUser source migrated) :
    MeaningKept version initialUser id source migrated where
  toAccountsKept := haccounts
  vaultIds := by
    have hset : { id | migrated.hasVault id = true } = { id | source.hasVault id = true } := by
      simp only [h.hasVault]
    rw [hset]
    exact Set.bijOn_id _
  sameIds _ := rfl
  vaults := h.vaults ▸ .refl _
  revisions := h.revisions
  revisionContent := h.revisionContent
  heads id _ := h.heads id
  oldIds hlt := absurd hlt (by omega)
  markers _ := h.retiredVaults
  memberships := h.memberships
  sessions := h.sessions

theorem freshIds (h : Upgraded version source migrated) (h₃ : version < 3)
    (hdraw : drawIds candidates (source.vaults.map (·.id)) source.vaults.length = some newIds) :
    FreshIds migrated newIds := by
  have hretired : migrated.retiredVaults = [] := by rw [h.retiredVaults, if_neg (by omega)]
  have hdraw' : drawIds candidates migrated.reservedIds migrated.vaults.length = some newIds := by
    rw [Database.reservedIds, hretired, h.vaults, List.map_map, List.length_map, List.map_nil,
      List.append_nil]
    exact hdraw
  exact .of_drawIds hdraw'

/-- Before version 3 the vaults get new identities. -/
theorem meaningKept_of_rotated {now : Int} (h : Upgraded version source migrated)
    (h₃ : version < 3) (hc : Constraints migrated) (hfresh : FreshIds migrated newIds)
    (haccounts : AccountsKept version initialUser source migrated)
    (hdisjoint : ∀ r ∈ target.retiredVaults, target.hasVault r.id = false)
    (hrotated : Rotated migrated (migrated.replacements newIds) now target) :
    MeaningKept version initialUser (rename (migrated.replacements newIds)) source target := by
  have hrenaming := hrotated.renaming hc hfresh
  have hmarkers : target.retiredVaults =
      (migrated.replacements newIds).map (Replacement.marker now) := by
    obtain ⟨kept, hretired, hsub, -⟩ := hrotated.retiredVaults
    rw [h.retiredVaults, if_neg (by omega), List.sublist_nil] at hsub
    rw [hretired, hsub, List.nil_append]
  have hold : ∀ id, source.hasVault id = true ↔ ∃ r ∈ target.retiredVaults, r.id = id := by
    intro id
    rw [hmarkers, ← h.hasVault, hasVault_iff]
    constructor
    · rintro ⟨v, hv, rfl⟩
      obtain ⟨r, hr, hid⟩ := hfresh.exists_replacement hv
      exact ⟨r.marker now, List.mem_map_of_mem hr, hid⟩
    · rintro ⟨_, hmarker, rfl⟩
      obtain ⟨r, hr, rfl⟩ := List.mem_map.mp hmarker
      obtain ⟨⟨v, hv, hid, -⟩, -⟩ := exists_of_mem_replacements hr
      exact ⟨v, hv, hid⟩
  exact {
    users := fun h₅ => absurd h₅ (by omega)
    firstUser := fun h₅ => hrotated.users ▸ haccounts.firstUser h₅
    administrator := hrotated.users ▸ haccounts.administrator
    vaultIds := by
      have hbij := hrenaming.bijective
      simp only [h.hasVault] at hbij
      exact hbij
    sameIds := fun hle => absurd h₃ (by omega)
    vaults := by
      have hvaults := hrenaming.vaults
      rw [h.vaults, List.map_map] at hvaults
      exact hvaults
    revisions := by
      rw [hrenaming.revisions, h.revisions, List.map_map]
      rfl
    revisionContent := hrenaming.revisionContent.trans h.revisionContent
    heads := fun id hid => by
      have hid' : migrated.hasVault id = true := (h.hasVault id).trans hid
      obtain ⟨hheads, hmax, hsize⟩ := h.heads id
      exact ⟨(hrenaming.headUids hc hid').trans hheads, (hrenaming.maxUidOf hc hid').trans hmax,
        (hrenaming.liveSize hc hid').trans hsize⟩
    oldIds := fun _ id => ⟨hold id, fun hid => by
      obtain ⟨r, hr, rfl⟩ := (hold id).mp hid
      exact hdisjoint r hr⟩
    markers := fun hle => absurd h₃ (by omega)
    memberships := by rw [hrotated.memberships, if_neg (by omega)]
    sessions := hrotated.sessions }

end Upgraded

/-- A migration that succeeds keeps what the database says.  Revisions stay with their bytes,
their order and their flags, and so do vaults, their heads, sizes and versions, retired
identities, users and memberships, as far as the version of the source has them.  Rows without an
owner are the first user's.  No session survives, and the user with the lowest id is the one
administrator.  Vault identities stay from version 3 on; before, they are renamed one to one, and
the old ones are the retired identities. -/
theorem migration_keeps_meaning {file : DatabaseFile}
    (hok : file.db.migrateVersionedDatabaseUnderLock phc initialUser newIds t = .ok target)
    (hdraw : file.db.recordedVersion < 3 →
      drawIds candidates (file.db.vaults.map (·.id)) file.db.vaults.length = some newIds) :
    ∃ f, MeaningKept file.db.recordedVersion initialUser f file.db target := by
  obtain ⟨version, user, migrated, h⟩ := migrateVersionedDatabaseUnderLock_ok hok
  obtain ⟨hc, -⟩ := h.constraints file.keys
  have haccounts := h.accountsKept hc
  rw [h.recordedVersion] at hdraw ⊢
  by_cases h₃ : version < 3
  · have hfresh := h.upgraded.freshIds h₃ (hdraw h₃)
    obtain ⟨n, hrotate⟩ := h.rotated h₃
    have hnone : migrated.retiredVaults = [] := by
      rw [h.upgraded.retiredVaults, if_neg (by omega)]
    have hrotated := rotated_of_ok hc hfresh (by simp [hnone]) hrotate
    have htarget := (verifyRecordedSchema_ok.mp (verifyConnection_ok.mp h.accepted)).2.2.2.2
    have hdisjoint := htarget.logical.disjoint ((htarget.tables _).mpr (by decide))
    exact ⟨_, h.upgraded.meaningKept_of_rotated h₃ hc hfresh haccounts hdisjoint hrotated⟩
  · rw [h.kept (by omega)]
    exact ⟨id, h.upgraded.meaningKept (by omega) haccounts⟩

end

/-- A database of version 2 with a note, and a session that its device uses. -/
def ancientFile : DatabaseFile where
  db :=
    { versionFour 1 { emptyVault with version := 1, size := 3 }
        [{ uid := 1, vaultId := "vault", path := "note", relatedpath := none, extension := "md",
           hash := "h", ctime := 0, mtime := 0, folder := false, deleted := false, size := 3,
           pieces := 1, content := none, device := "d", userId := 1, ts := 0 }] with
      tables := Database.tablesAt 2
      schemaMigrations := [⟨1, 0⟩, ⟨2, 0⟩]
      revisionContent := [⟨1, [1, 2, 3]⟩]
      sessions := [
        { tokenHash := someTokenHash, userId := 0, createdAt := 0, expiresAt := 1000,
          revokedAt := none }] }
  keys := by constructor <;> decide

/-- The note is in a vault with a new identity, and the session is gone. -/
theorem migration_keeps_meaning_of_note :
    ∃ target, ancientFile.db.migrateVersionedDatabaseUnderLock onePhc (some firstOwner) ["new"]
        atZero = .ok target ∧ ∃ f, MeaningKept 2 (some firstOwner) f ancientFile.db target := by
  have hdraw : drawIds ["vault", "new"] (ancientFile.db.vaults.map (·.id))
      ancientFile.db.vaults.length = some ["new"] := by decide +kernel
  have hok : ancientFile.db.migrateVersionedDatabaseUnderLock onePhc (some firstOwner) ["new"]
      atZero = .ok (ancientFile.migrate onePhc (some firstOwner) ["new"] atZero).db := by
    decide +kernel
  exact ⟨_, hok, migration_keeps_meaning hok fun _ => hdraw⟩

end Blackglass
