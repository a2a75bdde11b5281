import Blackglass.RevisionStore

/-!
# Stored bytes

What requests do to the two sums the quotas are about: the bytes of all revisions, which a
counter keeps, and the bytes of the revisions in the vaults of one owner.  A request that
adds a revision adds its size to both; every other request leaves them or takes from them
(`Shrinks`).
-/

namespace Blackglass

open Rows Transition

/-- The bytes of all revisions. -/
def Database.usedBytes (db : Database) : Int := sumOf (·.size) db.revisions

/-- The counter is right, and no size is negative. -/
structure Metered (db : Database) : Prop where
  nonneg : ∀ r ∈ db.revisions, 0 ≤ r.size
  counter : db.runtimeStorageUsage = some db.usedBytes

/-- Revisions may have gone, and none is in a vault of an owner in whose vault it was not. -/
structure Shrinks (db db' : Database) : Prop where
  revisions : db'.revisions.Sublist db.revisions
  owns : ∀ r ∈ db'.revisions, ∀ o,
    db'.ownsVault o r.vaultId = true → db.ownsVault o r.vaultId = true
  counter : db.runtimeStorageUsage = some db.usedBytes →
    db'.runtimeStorageUsage = some db'.usedBytes

namespace Request

/-- The id of the vault a request creates. -/
def newVault? : Request → Option String
  | createVault _ _ vault => some vault.id
  | migrateVault _ _ _ replacement => some replacement.id
  | _ => none

def renames? : Request → Option String
  | renameVault _ _ id _ => some id
  | _ => none

end Request

section

variable {db db' db'' : Database} {t : Readings} {request : Request} {answer : Answer}

theorem ownsVault_mapVaults {f : VaultRow → VaultRow} (hid : ∀ v, (f v).id = v.id)
    (howner : ∀ v, (f v).ownerUserId = v.ownerUserId) (o : Int) (id : String) :
    (db.mapVaults f).ownsVault o id = db.ownsVault o id := by
  simp [Database.ownsVault, hid, howner, Function.comp_def]

/-! ## Taking away -/

namespace Shrinks

theorem refl (db : Database) : Shrinks db db := ⟨.refl _, fun _ _ _ => id, id⟩

theorem trans (h₁ : Shrinks db db') (h₂ : Shrinks db' db'') : Shrinks db db'' where
  revisions := h₂.revisions.trans h₁.revisions
  owns r hr o howns := h₁.owns r (h₂.revisions.subset hr) o (h₂.owns r hr o howns)
  counter h := h₂.counter (h₁.counter h)

theorem metered (h : Shrinks db db') (hm : Metered db) : Metered db' where
  nonneg r hr := hm.nonneg r (h.revisions.subset hr)
  counter := h.counter hm.counter

theorem usedBytes_le (h : Shrinks db db') (hm : Metered db) : db'.usedBytes ≤ db.usedBytes :=
  sumOf_le_of_sublist h.revisions hm.nonneg

theorem ownerStored_le (h : Shrinks db db') (hm : Metered db) (o : Int) :
    db'.ownerStoredCiphertextSize o ≤ db.ownerStoredCiphertextSize o := by
  refine sumOf_le_of_sublist ?_ fun r hr => hm.nonneg r (List.mem_of_mem_filter hr)
  have hfilter : (db'.revisions.filter fun r => db'.ownsVault o r.vaultId) =
      (db'.revisions.filter fun r => db.ownsVault o r.vaultId).filter
        fun r => db'.ownsVault o r.vaultId := by
    rw [List.filter_filter]
    refine List.filter_congr fun r hr => ?_
    cases howns : db'.ownsVault o r.vaultId with
    | false => rfl
    | true => simp [h.owns r hr o howns]
  rw [hfilter]
  exact (List.filter_sublist ..).trans (h.revisions.filter _)

/-- The tables that the sums are about stay. -/
theorem frame (hrevisions : db'.revisions = db.revisions) (hvaults : db'.vaults = db.vaults)
    (hcounter : db'.runtimeStorageUsage = db.runtimeStorageUsage) : Shrinks db db' where
  revisions := by rw [hrevisions]
  owns r _ o := by
    rw [Database.ownsVault, hvaults]
    exact id
  counter h := by rw [hcounter, h, Database.usedBytes, Database.usedBytes, hrevisions]

theorem mapVaults {f : VaultRow → VaultRow} (hid : ∀ v, (f v).id = v.id)
    (howner : ∀ v, (f v).ownerUserId = v.ownerUserId) : Shrinks db (db.mapVaults f) where
  revisions := .refl _
  owns r _ o := by
    rw [ownsVault_mapVaults hid howner]
    exact id
  counter := id

/-- A new vault has no revisions. -/
theorem withVault (hc : Constraints db) {row : VaultRow} (hfresh : db.hasVault row.id = false) :
    Shrinks db (db.withVault row) where
  revisions := .refl _
  owns r hr o howns := by
    obtain ⟨v, hv, hid, howner⟩ := ownsVault_iff.mp howns
    rcases List.mem_append.mp hv with hv | hv
    · exact ownsVault_iff.mpr ⟨v, hv, hid, howner⟩
    · obtain rfl := List.mem_singleton.mp hv
      have hvault := hc.revisionVault r hr
      rw [← hid, hfresh] at hvault
      cases hvault
  counter := id

theorem withoutRevisions (p : RevisionRow → Bool) : Shrinks db (db.withoutRevisions p) where
  revisions := List.filter_sublist ..
  owns _ _ _ := id
  counter h := by
    have hsum := sumOf_filter_add (·.size) p db.revisions
    simp only [Database.withoutRevisions, Database.usedBytes] at h ⊢
    rw [h, Option.map_some]
    congr 1
    omega

theorem withoutVaults (p : VaultRow → Bool) : Shrinks db (db.withoutVaults p) where
  revisions := List.filter_sublist ..
  owns r _ o howns := by
    obtain ⟨v, hv, hid⟩ := ownsVault_iff.mp howns
    exact ownsVault_iff.mpr ⟨v, List.mem_of_mem_filter hv, hid⟩
  counter := (withoutRevisions _).counter

end Shrinks

/-- Requests that add no revision. -/
theorem Effect.shrinks (he : Effect db t request answer db') (hc : Constraints db)
    (hadds : request.adds = false) : Shrinks db db' := by
  cases he.written hc with
  | same => exact .refl _
  | created hfresh => exact .withVault hc hfresh
  | bound | renamed => exact .mapVaults (fun v => by split <;> rfl) fun v => by split <;> rfl
  | deleted _ =>
    refine .trans ?_ (.withoutVaults _)
    exact .frame rfl rfl rfl
  | @migrated userId _ _ replacement _ _ _ hfresh _ _ =>
    have hcreated : Shrinks db (db.withVault (replacement.toRow userId)) := .withVault hc hfresh
    refine .trans (hcreated.trans ?_) (.withoutVaults _)
    exact .frame rfl rfl rfl
  | invited | removed => exact .frame rfl rfl rfl
  | committed hcommits _ => cases hadds.symm.trans hcommits
  | purged =>
    exact (Shrinks.withoutRevisions _).trans
      (.mapVaults (fun v => by split <;> rfl) fun v => by split <;> rfl)

/-! ## Adding -/

section

variable (row : RevisionRow) (content : Option Blob)

theorem usedBytes_commitRevision :
    (db.commitRevision row content).usedBytes = db.usedBytes + row.size := by
  simp [Database.usedBytes]

theorem ownsVault_commitRevision (o : Int) (id : String) :
    (db.commitRevision row content).ownsVault o id = db.ownsVault o id := by
  cases content <;>
    exact ownsVault_mapVaults (fun v => by split <;> rfl) (fun v => by split <;> rfl) o id

theorem ownerStored_commitRevision (o : Int) :
    (db.commitRevision row content).ownerStoredCiphertextSize o =
      db.ownerStoredCiphertextSize o + if db.ownsVault o row.vaultId then row.size else 0 := by
  rw [Database.ownerStoredCiphertextSize, commitRevision_revisions, List.filter_append,
    sumOf_append]
  simp only [ownsVault_commitRevision]
  congr 1
  by_cases howns : db.ownsVault o row.vaultId = true
  · simp [howns]
  · simp [howns]

theorem counter_commitRevision (h : db.runtimeStorageUsage = some db.usedBytes) :
    (db.commitRevision row content).runtimeStorageUsage =
      some (db.commitRevision row content).usedBytes := by
  rw [usedBytes_commitRevision]
  cases content <;> simp [Database.commitRevision, Database.refreshVault, h]

theorem Metered.commitRevision (h : Metered db) (hsize : 0 ≤ row.size) :
    Metered (db.commitRevision row content) where
  nonneg r hr := by
    rw [commitRevision_revisions] at hr
    rcases List.mem_append.mp hr with hr | hr
    · exact h.nonneg r hr
    · rw [List.mem_singleton.mp hr]
      exact hsize
  counter := counter_commitRevision row content h.counter

end

/-! ## Rows of vaults -/

/-- What every request leaves of the row of a vault: its owner and encryption version, a keyhash
once it is bound, and the name except for a rename. -/
structure VaultRow.Continues (request : Request) (v v' : VaultRow) : Prop where
  id : v.id = v'.id
  owner : v.ownerUserId = v'.ownerUserId
  encryption : v.encryptionVersion = v'.encryptionVersion
  keyhash : ∀ k, v.keyhash = some k → v'.keyhash = some k
  name : request.renames? ≠ some v.id → v.name = v'.name

theorem VaultRow.Continues.refl (v : VaultRow) : v.Continues request v :=
  ⟨rfl, rfl, rfl, fun _ hk => hk, fun _ => rfl⟩

/-- Every vault is a new one or was there before. -/
def VaultsContinue (request : Request) (db db' : Database) : Prop :=
  ∀ v' ∈ db'.vaults, request.newVault? = some v'.id ∨ ∃ v ∈ db.vaults, v.Continues request v'

namespace VaultsContinue

theorem of_subset (h : db'.vaults ⊆ db.vaults) : VaultsContinue request db db' :=
  fun v hv => .inr ⟨v, h hv, .refl v⟩

theorem of_append {row : VaultRow} (hrow : request.newVault? = some row.id)
    (h : db'.vaults ⊆ db.vaults ++ [row]) : VaultsContinue request db db' := by
  intro v hv
  rcases List.mem_append.mp (h hv) with hv | hv
  · exact .inr ⟨v, hv, .refl v⟩
  · rw [List.mem_singleton.mp hv]
    exact .inl hrow

theorem of_map {f : VaultRow → VaultRow} (hf : ∀ v : VaultRow, v.Continues request (f v))
    (h : db'.vaults = db.vaults.map f) : VaultsContinue request db db' := by
  intro v' hv'
  rw [h] at hv'
  obtain ⟨v, hv, rfl⟩ := List.mem_map.mp hv'
  exact .inr ⟨v, hv, hf v⟩

theorem commitRevision (row : RevisionRow) (content : Option Blob) :
    VaultsContinue request db (db.commitRevision row content) := by
  cases content <;>
  · refine of_map (fun v => ?_) rfl
    split <;> exact ⟨rfl, rfl, rfl, fun _ hk => hk, fun _ => rfl⟩

end VaultsContinue

theorem Effect.vaultsContinue (he : Effect db t request answer db') (hc : Constraints db) :
    VaultsContinue request db db' := by
  cases he.written hc with
  | same | invited | removed => exact .of_subset (List.Subset.refl _)
  | created _ => exact .of_append rfl (List.Subset.refl _)
  | bound =>
    refine .of_map (fun v => ?_) rfl
    split
    · -- the update is of vaults that have none
      rename_i hbinds
      exact ⟨rfl, rfl, rfl, fun k hk => by simp [hk] at hbinds, fun _ => rfl⟩
    · exact .refl v
  | renamed =>
    refine .of_map (fun v => ?_) rfl
    split
    · rename_i hrenames
      refine ⟨rfl, rfl, rfl, fun _ hk => hk, fun hother => absurd ?_ hother⟩
      simp only [Bool.and_eq_true, decide_eq_true_eq] at hrenames
      exact congrArg some hrenames.1.symm
    · exact .refl v
  | deleted _ => exact .of_subset (List.filter_subset_self _)
  | migrated => exact .of_append rfl (List.filter_subset_self _)
  | committed _ _ => exact .commitRevision _ _
  | purged =>
    refine .of_map (fun v => ?_) rfl
    split <;> exact ⟨rfl, rfl, rfl, fun _ hk => hk, fun _ => rfl⟩

/-- A vault keeps its owner; what else there is afterwards is new. -/
def OwnersKept (new : Option String) (db db' : Database) : Prop :=
  ∀ v' ∈ db'.vaults, new = some v'.id ∨
    ∃ v ∈ db.vaults, v.id = v'.id ∧ v.ownerUserId = v'.ownerUserId

theorem OwnersKept.of_subset {new : Option String} (h : db'.vaults ⊆ db.vaults) :
    OwnersKept new db db' :=
  fun v hv => .inr ⟨v, h hv, rfl, rfl⟩

theorem Effect.ownersKept (he : Effect db t request answer db') (hc : Constraints db) :
    OwnersKept request.newVault? db db' := by
  intro v' hv'
  obtain hnew | ⟨v, hv, hkept⟩ := he.vaultsContinue hc v' hv'
  · exact .inl hnew
  · exact .inr ⟨v, hv, hkept.id, hkept.owner⟩

/-! ## The counter -/

/-- Every request keeps the counter right. -/
theorem Effect.counter (he : Effect db t request answer db') (hc : Constraints db)
    (h : db.runtimeStorageUsage = some db.usedBytes) :
    db'.runtimeStorageUsage = some db'.usedBytes := by
  cases hadds : request.adds with
  | false => exact (he.shrinks hc hadds).counter h
  | true =>
    cases he.written hc with
    | same => exact h
    | committed _ _ => exact counter_commitRevision _ _ h
    | _ => cases hadds

/-- Everyone who owns a vault. -/
def Database.vaultOwners (db : Database) : List Int := (db.vaults.map (·.ownerUserId)).dedup

/-- Every revision is in a vault, and every vault has one owner. -/
theorem sumOf_ownerStored (hc : Constraints db) :
    sumOf db.ownerStoredCiphertextSize db.vaultOwners = db.usedBytes := by
  refine sumOf_keys (List.nodup_dedup _) fun r hr => ?_
  obtain ⟨v, hv, hid⟩ := hasVault_iff.mp (hc.revisionVault r hr)
  refine ⟨v.ownerUserId, List.mem_dedup.mpr (List.mem_map_of_mem hv), fun o _ => ?_⟩
  rw [← hid, hc.owner_unique hv, eq_comm]

/-- After the start of the server the counter is the sum of all sizes, whatever requests
succeed or fail, and the sum of what the owners of vaults store. -/
theorem counter_of_run {file s s' : Store} {requests : List (Request × Readings)}
    (hstart : s.db = file.db.initializeRuntimeStorageUsage)
    (hrun : Run Store.Step s requests s') :
    s'.db.storedCiphertextSize = .ok (sumOf (·.size) s'.db.revisions) ∧
      s'.db.storedCiphertextSize =
        .ok (sumOf s'.db.ownerStoredCiphertextSize s'.db.vaultOwners) := by
  have hfirst : s.db.runtimeStorageUsage = some s.db.usedBytes := by
    rw [hstart]
    rfl
  have hlast : s'.db.runtimeStorageUsage = some s'.db.usedBytes := by
    refine Run.invariant (I := fun s : Store => s.db.runtimeStorageUsage = some s.db.usedBytes)
      (fun {s _ _} h hstep => ?_) hfirst hrun
    cases hstep with
    | commit hok => exact (execute_ok hok).counter s.constraints h
    | rollback _ => exact h
  have hcounter : s'.db.storedCiphertextSize = .ok s'.db.usedBytes := by
    rw [Database.storedCiphertextSize, hlast]
    rfl
  exact ⟨hcounter, by rw [sumOf_ownerStored s'.constraints, hcounter]⟩

/-- A note is pushed, a second push does not fit any more, the note is deleted with its
history and the vault with everything in it. -/
theorem counter_of_deleted_vault :
    let push := Request.addFileRevision (notePush false 3 1) someTokenHash [1, 2, 3] 5 5
    let delete := Request.addEmptyRevision (notePush true 0 0) someTokenHash 5 5
    let purge := Request.purge 1 someTokenHash "vault"
    let deleteVault := Request.deleteVault 1 someTokenHash "vault"
    let pushed := (personalStore.next push ⟨500, 500⟩).next push ⟨500, 500⟩
    let purged := (pushed.next delete ⟨500, 500⟩).next purge ⟨500, 500⟩
    let s' := purged.next deleteVault ⟨500, 500⟩
    pushed.db.storedCiphertextSize = .ok 3 ∧ pushed.db.revisions.length = 1 ∧
      purged.db.storedCiphertextSize = .ok 0 ∧ s'.db.vaults = [] ∧
      s'.db.storedCiphertextSize = .ok (sumOf (·.size) s'.db.revisions) := by
  intro push delete purge deleteVault pushed purged s'
  have hstart : personalStore.db = personalStore.db.initializeRuntimeStorageUsage := by
    decide +kernel
  have hrun : Run Store.Step personalStore [(push, ⟨500, 500⟩), (push, ⟨500, 500⟩),
      (delete, ⟨500, 500⟩), (purge, ⟨500, 500⟩), (deleteVault, ⟨500, 500⟩)] s' :=
    .cons (Store.step_next ..) (.cons (Store.step_next ..) (.cons (Store.step_next ..)
      (.cons (Store.step_next ..) (.cons (Store.step_next ..) (.nil _)))))
  refine ⟨by decide +kernel, by decide +kernel, by decide +kernel, by decide +kernel, ?_⟩
  exact (counter_of_run hstart hrun).1

end

end Blackglass
