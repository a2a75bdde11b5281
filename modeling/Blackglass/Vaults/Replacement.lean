import Blackglass.Membership

/-!
# What a migration leaves

A migration is four statements: the replacement is inserted, the active memberships are
moved to it, the source is retired, and the source is deleted with all that refers to it.
Here the four are read together, as one change of the database.
-/

namespace Blackglass

open Rows Outcome

/-- Vault `sourceId` is gone with what was stored in it and its former members, and its
members have moved to the replacement. -/
def Database.replaceVault (db : Database) (ownerUserId : Int) (sourceId : String)
    (replacement : Vault) (now : Int) : Database :=
  { db with
    vaults := (db.vaults.filter fun v => v.id ≠ sourceId) ++ [replacement.toRow ownerUserId]
    revisions := db.revisions.filter fun r => r.vaultId ≠ sourceId
    revisionContent := db.revisionContent.filter fun c =>
      !db.revisions.any fun r => r.vaultId = sourceId && r.uid = c.uid
    memberships := (db.memberships.filter fun m => m.vaultId ≠ sourceId || m.active).map
      (.moved sourceId replacement.id)
    retiredVaults := (db.withRetiredIdentity sourceId ownerUserId now).retiredVaults
    runtimeStorageUsage := db.runtimeStorageUsage.map
      (· - sumOf (·.size) (db.revisions.filter fun r => r.vaultId = sourceId)) }

section

variable {db db' : Database} {userId : Int} {tokenHash : Option String} {sourceId : String}
  {replacement : Vault} {t : Readings}

/-- The rows that go with the vaults a deletion by id and owner finds are those of the id. -/
theorem any_owned_eq (howned : db.ownsVault userId sourceId = true) (id : String) :
    (db.vaults.any fun v => (v.id = sourceId && v.ownerUserId = userId) && v.id = id) =
      decide (id = sourceId) := by
  obtain ⟨w, hw, hwid, howner⟩ := ownsVault_iff.mp howned
  rw [Bool.eq_iff_iff]
  simp only [List.any_eq_true, Bool.and_eq_true, decide_eq_true_eq]
  constructor
  · rintro ⟨v, -, ⟨hid, -⟩, rfl⟩
    exact hid
  · rintro rfl
    exact ⟨w, hw, ⟨hwid, howner⟩, hwid⟩

theorem withoutVaults_owned (hc : Constraints db) (howned : db.ownsVault userId sourceId = true) :
    db.withoutVaults (fun v => v.id = sourceId && v.ownerUserId = userId) =
      { db.withoutRevisions (fun r => r.vaultId = sourceId) with
        vaults := db.vaults.filter fun v => v.id ≠ sourceId
        memberships := db.memberships.filter fun m => m.vaultId ≠ sourceId } := by
  have hvaults : (db.vaults.filter fun v => !(v.id = sourceId && v.ownerUserId = userId)) =
      db.vaults.filter fun v => v.id ≠ sourceId := by
    refine List.filter_congr fun v hv => ?_
    obtain ⟨w, hw, hwid, howner⟩ := ownsVault_iff.mp howned
    by_cases hid : v.id = sourceId
    · have hsame : v = w := hc.eq_of_vaultId hv hw (hid.trans hwid.symm)
      simp [hsame, howner]
    · simp [hid]
  unfold Database.withoutVaults
  simp only [any_owned_eq howned, hvaults, decide_not]

/-- Nobody is a member of a vault that does not exist. -/
theorem Constraints.vaultId_ne_of_membership (hc : Constraints db) {m : MembershipRow}
    (hm : m ∈ db.memberships) {id : String} (hid : db.hasVault id = false) : m.vaultId ≠ id := by
  intro heq
  have hexists := hc.membershipVault m hm
  rw [heq, hid] at hexists
  cases hexists

/-- Of the rows that named the source, the active ones no longer do. -/
theorem filter_moved (hne : replacement.id ≠ sourceId) (rows : List MembershipRow) :
    ((rows.map (MembershipRow.moved sourceId replacement.id)).filter
        fun m => m.vaultId ≠ sourceId) =
      (rows.filter fun m => m.vaultId ≠ sourceId || m.active).map
        (.moved sourceId replacement.id) := by
  rw [List.filter_map]
  refine congrArg (List.map _) (List.filter_congr fun m _ => ?_)
  by_cases hsource : m.vaultId = sourceId <;> cases hactive : m.active <;>
    simp [MembershipRow.moved_vaultId, hsource, hactive, hne]

/-- A migration that answers `true` has found the vault among those of its user and no vault
with the new id, and has replaced the one by the other; nothing else has changed. -/
theorem migrateVaultInternal_replaces (hc : Constraints db)
    (h : db.migrateVaultInternal userId tokenHash sourceId replacement t = .ok (true, db')) :
    db.ownsVault userId sourceId = true ∧ db.hasVault replacement.id = false ∧
      db' = db.replaceVault userId sourceId replacement t.now := by
  obtain ⟨-, ⟨hfalse, -⟩ | ⟨-, howned, hfresh, v, hv, hvid, rfl⟩⟩ := migrateVaultInternal_ok h
  · cases hfalse
  refine ⟨howned, hfresh, ?_⟩
  obtain ⟨w, hw, hwid, howner⟩ := ownsVault_iff.mp howned
  have hsame : v = w := hc.eq_of_vaultId hv hw (hvid.trans hwid.symm)
  have hne : replacement.id ≠ sourceId := by
    intro heq
    exact hasVault_eq_false_iff.mp hfresh w hw (hwid.trans heq.symm)
  have huser : db.hasUser userId = true := howner ▸ hc.vaultOwner w hw
  have hbefore : Constraints (((db.withVault (replacement.toRow userId)).mapMemberships
      (.moved sourceId replacement.id)).withRetiredIdentity sourceId userId t.now) :=
    hc.withReplacement hfresh huser huser
  have hvaults : ((db.vaults ++ [replacement.toRow userId]).filter fun v => v.id ≠ sourceId) =
      (db.vaults.filter fun v => v.id ≠ sourceId) ++ [replacement.toRow userId] := by
    have hlast : (replacement.toRow userId).id ≠ sourceId := hne
    simp [List.filter_append, hlast]
  rw [hsame, howner, withoutVaults_owned hbefore
    (ownsVault_iff.mpr ⟨w, List.mem_append_left _ hw, hwid, howner⟩)]
  unfold Database.replaceVault
  rw [← hvaults, ← filter_moved hne]
  simp only [ne_eq, decide_not]
  rfl

/-- The members of a vault come along when it is migrated, each with the row they have. -/
theorem memberships_replaceVault (hc : Constraints db)
    (hfresh : db.hasVault replacement.id = false) (now : Int) :
    ((db.replaceVault userId sourceId replacement now).memberships.filter fun m =>
        m.vaultId = replacement.id) =
      (db.activeMemberships sourceId).map fun m => { m with vaultId := replacement.id } := by
  have hrows : (db.memberships.filter fun m =>
        decide ((m.moved sourceId replacement.id).vaultId = replacement.id) &&
          (decide (m.vaultId ≠ sourceId) || m.active)) =
      db.memberships.filter fun m => m.vaultId = sourceId && m.active := by
    refine List.filter_congr fun m hm => ?_
    have hold := hc.vaultId_ne_of_membership hm hfresh
    by_cases hsource : m.vaultId = sourceId <;> cases hactive : m.active <;>
      simp [MembershipRow.moved_vaultId, hsource, hactive, hold]
  unfold Database.activeMemberships Database.replaceVault
  rw [List.filter_map, List.filter_filter]
  unfold Function.comp
  rw [hrows]
  refine List.map_congr_left fun m hm => ?_
  unfold MembershipRow.moved
  rw [if_pos (List.mem_filter.mp hm).2]

/-- The memberships in other vaults are not concerned. -/
theorem otherMemberships_replaceVault (hc : Constraints db)
    (hfresh : db.hasVault replacement.id = false) (now : Int) :
    ((db.replaceVault userId sourceId replacement now).memberships.filter fun m =>
        m.vaultId ≠ replacement.id) =
      db.memberships.filter fun m => m.vaultId ≠ sourceId := by
  have hrows : (db.memberships.filter fun m =>
        decide ((m.moved sourceId replacement.id).vaultId ≠ replacement.id) &&
          (decide (m.vaultId ≠ sourceId) || m.active)) =
      db.memberships.filter fun m => m.vaultId ≠ sourceId := by
    refine List.filter_congr fun m hm => ?_
    have hold := hc.vaultId_ne_of_membership hm hfresh
    by_cases hsource : m.vaultId = sourceId <;> cases hactive : m.active <;>
      simp [MembershipRow.moved_vaultId, hsource, hactive, hold]
  unfold Database.replaceVault
  rw [List.filter_map, List.filter_filter]
  unfold Function.comp
  rw [hrows]
  refine (List.map_congr_left fun m hm => ?_).trans (List.map_id _)
  have hother : m.vaultId ≠ sourceId := of_decide_eq_true (List.mem_filter.mp hm).2
  simp [MembershipRow.moved, hother]

end

end Blackglass
