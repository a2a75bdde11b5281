import Blackglass.SchemaMigration.Lineage
import Blackglass.SchemaMigration.Meaning
import Blackglass.SchemaMigration.Steps

/-!
# Which databases can be migrated

A database that the validator of its version accepts is migrated just if it meets the conditions
of `Database.Upgradable`: those of the steps that lie before it (`StepAccepted`), read off the
source, and a clock that can be stored.  The three that can fail for a database that served its
owner well are those of version 5.
-/

namespace Blackglass

open Rows Outcome Text

/-- What a migration asks for beyond the validator of the source's version. -/
structure Database.Upgradable (source : Database) (t : MigrationReadings) : Prop where
  appliedAt : ∀ v, source.recordedVersion < v → v ≤ 7 → safeFrom 0 (t.steps v).appliedAt
  epochAt : safeFrom 0 (t.steps 7).epochAt
  rotatedAt : source.recordedVersion < 3 → source.vaults = [] ∨ safeFrom 0 t.rotatedAt
  /-- The copy is checked a little later than the source. -/
  copiedAt : 5 ≤ source.recordedVersion → ∀ s ∈ source.sessions, s.live t.copiedAt = true →
    ((source.liveSessionsOf s.userId t.copiedAt).length : Int) ≤ maxSessionsPerUser
  highWater : source.recordedVersion < 5 → ∀ v ∈ source.vaults, v.version ≤ source.maxRevisionUid
  sessions : 2 ≤ source.recordedVersion → source.recordedVersion < 5 →
    ((source.sessions.filter (·.live (t.steps 5).verifiedAt)).length : Int) ≤ maxSessionsPerUser
  retiredVaults : source.recordedVersion = 4 →
    (source.retiredVaults.length : Int) ≤ maxRetiredVaultsPerOwner
  users : 5 ≤ source.recordedVersion → source.users ≠ []

/-! ## The steps, read off the source -/

section

variable {phc : PhcParser} {db source migrated target : Database} {user : InitialUser}
  {clock : Int → StepReadings} {initialUser : Option InitialUser} {newIds : List String}
  {t : MigrationReadings} {version now now' : Int} {n : Nat}

/-- Up to version 4 the sessions stay, where there are sessions. -/
theorem sessions_upgraded (hn : version + n ≤ 4) : (db.upgraded user clock version n).sessions =
    if version < 2 ∧ 2 ≤ version + n then [] else db.sessions := by
  refine upgraded_part (·.sessions) (fun _ => []) (fun _ => rfl) fun v _ hle hv db s => ?_
  unfold Database.upgrade
  split_ifs <;> first | omega | rfl

theorem maxRevisionUid_upgraded (hn : version + n ≤ 4) :
    (db.upgraded user clock version n).maxRevisionUid = db.maxRevisionUid := by
  rw [Database.maxRevisionUid, revisions_upgraded, if_neg (by omega)]
  rfl

theorem fitsOneOwner_upgraded (hn : version + n = 4) :
    (db.upgraded user clock version n).FitsOneOwner now ↔
      (∀ v ∈ db.vaults, v.version ≤ db.maxRevisionUid) ∧
        (2 ≤ version →
          ((db.sessions.filter (·.live now)).length : Int) ≤ maxSessionsPerUser) ∧
        (version = 4 → (db.retiredVaults.length : Int) ≤ maxRetiredVaultsPerOwner) := by
  have hvaults : (db.upgraded user clock version n).vaults = db.vaults := by
    rw [vaults_upgraded, if_neg (by omega)]
  have hmax : (db.upgraded user clock version n).maxRevisionUid = db.maxRevisionUid :=
    maxRevisionUid_upgraded hn.le
  have hsessions : (db.upgraded user clock version n).sessions =
      if version < 2 ∧ 2 ≤ version + n then [] else db.sessions := sessions_upgraded hn.le
  have hnow : version = 4 → n = 0 := fun h₄ => by omega
  constructor
  · rintro ⟨hhigh, hlive, hcount⟩
    refine ⟨fun v hv => ?_, fun h₂ => ?_, fun h₄ => ?_⟩
    · rw [← hmax]
      exact hhigh v (hvaults ▸ hv)
    · rwa [hsessions, if_neg (by omega)] at hlive
    · rwa [hnow h₄] at hcount
  · rintro ⟨hhigh, hlive, hcount⟩
    refine ⟨?_, ?_, ?_⟩
    · rw [hvaults, hmax]
      exact hhigh
    · rw [hsessions]
      split_ifs with h₂
      · rw [List.filter_nil]
        decide
      · exact hlive (by omega)
    · by_cases h₄ : version = 4
      · rw [hnow h₄]
        exact hcount h₄
      · rw [retiredVaults_upgraded_of_lt (by omega) hn.ge]
        decide

/-- The conditions of all steps together. -/
theorem stepsAccepted_iff (h₁ : 1 ≤ version) (h₇ : version < 7) :
    (∀ m < 7 - version.toNat, (db.upgraded user clock version m).StepAccepted (version + m + 1)
        (clock (version + m + 1))) ↔
      (∀ v, version < v → v ≤ 7 → safeFrom 0 (clock v).appliedAt) ∧
        safeFrom 0 (clock 7).epochAt ∧
        (version < 5 → (∀ v ∈ db.vaults, v.version ≤ db.maxRevisionUid) ∧
          (2 ≤ version → ((db.sessions.filter (·.live (clock 5).verifiedAt)).length : Int) ≤
            maxSessionsPerUser) ∧
          (version = 4 → (db.retiredVaults.length : Int) ≤ maxRetiredVaultsPerOwner)) ∧
        (5 ≤ version → db.users ≠ []) := by
  have hat : ∀ v, version < v → version + (v - version - 1).toNat + 1 = v := fun v hv => by omega
  have husers : (db.upgraded user clock version (7 - version - 1).toNat).users =
      if version < 5 ∧ 5 ≤ version + (7 - version - 1).toNat then
        [user.toRow (clock 5).appliedAt] else db.users := users_upgraded (by omega)
  constructor
  · intro h
    have hstep : ∀ v, version < v → v ≤ 7 →
        (db.upgraded user clock version (v - version - 1).toNat).StepAccepted v (clock v) := by
      intro v hlt hle
      have := h (v - version - 1).toNat (by omega)
      rwa [hat v hlt] at this
    obtain ⟨hnonempty, hepoch⟩ := (hstep 7 h₇ le_rfl).administrator rfl
    refine ⟨fun v hlt hle => (hstep v hlt hle).appliedAt, hepoch, fun h₅ => ?_, fun h₅ => ?_⟩
    · exact (fitsOneOwner_upgraded (by omega)).mp ((hstep 5 h₅ (by omega)).fits rfl)
    · rwa [husers, if_neg (by omega)] at hnonempty
  · rintro ⟨happlied, hepoch, hfits, hnonempty⟩ m hm
    refine ⟨happlied _ (by omega) (by omega), fun h₅ => ?_, fun h₇ => ?_⟩
    · rw [h₅]
      exact (fitsOneOwner_upgraded (by omega)).mpr (hfits (by omega))
    · obtain rfl : m = (7 - version - 1).toNat := by omega
      rw [h₇, husers]
      refine ⟨?_, hepoch⟩
      split_ifs
      · exact List.cons_ne_nil _ _
      · exact hnonempty (by omega)

/-! ## After the last step -/

theorem migrationVersions_upgraded (h₁ : 1 ≤ version) (hn : version + n ≤ 7)
    (h : db.migrationVersions = Database.supportedMigrations.take version.toNat) :
    (db.upgraded user clock version n).migrationVersions =
      Database.supportedMigrations.take (version + n).toNat := by
  induction n with
  | zero => simpa [Database.upgraded] using h
  | succ n ih =>
    push_cast at hn ⊢
    have ih := ih (by omega)
    obtain ⟨k, hk⟩ : ∃ k : Int, k = version + n := ⟨_, rfl⟩
    rw [← hk] at ih
    have htake : Database.supportedMigrations.take (k + 1).toNat =
        Database.supportedMigrations.take k.toNat ++ [k + 1] := by
      have hcases : k = 1 ∨ k = 2 ∨ k = 3 ∨ k = 4 ∨ k = 5 ∨ k = 6 := by omega
      rcases hcases with rfl | rfl | rfl | rfl | rfl | rfl <;> rfl
    have hsorted : (Database.supportedMigrations.take (k + 1).toNat).Pairwise (· ≤ ·) :=
      List.Pairwise.sublist (List.take_sublist _ _) (by decide)
    rw [show version + (n + 1) = k + 1 by omega]
    refine List.Perm.eq_of_pairwise' (List.pairwise_insertionSort _ _) hsorted ?_
    rw [htake, ← ih, Database.upgraded, Database.migrationVersions, schemaMigrations_upgrade,
      List.map_append, ← hk]
    refine (List.perm_insertionSort _ _).trans (List.Perm.append_right _ ?_)
    exact (List.perm_insertionSort _ _).symm

theorem runtimeStorageUsage_upgraded :
    (db.upgraded user clock version n).runtimeStorageUsage = db.runtimeStorageUsage := by
  induction n with
  | zero => rfl
  | succ n ih =>
    rw [Database.upgraded, ← ih]
    unfold Database.upgrade
    split_ifs <;> rfl

/-- Only what a user's live sessions are depends on the time. -/
theorem VersionInvariants.at_time (h : VersionInvariants phc db version now)
    (hsessions : 5 ≤ version → ∀ s ∈ db.sessions, s.live now' = true →
      ((db.liveSessionsOf s.userId now').length : Int) ≤ maxSessionsPerUser) :
    VersionInvariants phc db version now' :=
  { h with
    logical := { h.logical with
      sessionsPerUser := fun _ hmulti => hsessions (of_decide_eq_true hmulti) } }

/-- What all steps have accepted, the server starts on. -/
theorem verifyConnection_upgraded
    (hrecorded : Database.verifyRecordedSchema phc source now = .ok version) (h₇ : version < 7)
    (hverified : ∀ m < 7 - version.toNat, VersionInvariants phc
      (source.offline.upgraded user clock version (m + 1)) (version + m + 1)
      (clock (version + m + 1)).verifiedAt) :
    Database.verifyConnection phc (source.offline.upgraded user clock version (7 - version.toNat))
      now' = .ok () := by
  obtain ⟨-, h₁, -, hversions⟩ := migrationVersions_of_recorded hrecorded
  have hhistory : (source.offline.upgraded user clock version
      (7 - version.toNat)).migrationVersions = [1, 2, 3, 4, 5, 6, 7] := by
    have hoffline : source.offline.migrationVersions =
      Database.supportedMigrations.take version.toNat := hversions
    rw [migrationVersions_upgraded h₁ (by omega) hoffline,
      show (version + (7 - version.toNat : Nat)).toNat = 7 by omega]
    rfl
  have hlast := verified_last h₁ h₇ hverified
  refine verifyConnection_ok.mpr (verifyRecordedSchema_ok.mpr
    ⟨(hlast.tables _).mpr (by decide), ?_, ?_, ?_, hlast.at_time ?_⟩)
  · simp [hhistory]
  · rw [hhistory]
    decide
  · rw [hhistory]
    rfl
  · simp [(upgraded_to_last h₁ h₇).sessions]

/-! ## The command -/

/-- What a database of version 7 with new identities is accepted by. -/
theorem verifyConnection_rotated_iff {uuids : List (Vector UInt8 16)} {n : Nat}
    (hup : Upgraded version source migrated) (h₃ : version < 3) (hc : Constraints migrated)
    (hverified : Database.verifyConnection phc migrated now = .ok ())
    (hdraw : drawIds (uuids.map uuidText) (source.vaults.map (·.id)) source.vaults.length =
      some newIds)
    (hrotate : migrated.rotateRecoveryEpoch newIds t.rotatedAt = .ok (n, target)) :
    Database.verifyConnection phc target now' = .ok () ↔
      source.vaults = [] ∨ safeFrom 0 t.rotatedAt := by
  have hfresh := hup.freshIds h₃ hdraw
  have hlength : ∀ id ∈ newIds, between 1 64 (sqlLength id) := by
    intro id hid
    obtain ⟨bytes, -, rfl⟩ := List.mem_map.mp ((drawIds_eq_some hdraw).2.2.1 id hid)
    rw [sqlLength_uuidText]
    decide
  have hversion := (verifyRecordedSchema_ok.mp (verifyConnection_ok.mp hverified)).2.2.2.2
  have hm : Markers migrated := hversion.logical.markers ((hversion.tables _).mpr (by decide))
  have hrotated := rotated_of_ok hc hfresh hm.disjoint hrotate
  have hm' : Markers target :=
    (hrotated.retirement hc hfresh hm).markers hc hm hfresh.notRetired
  rw [hrotated.verifyConnection_iff hc (hc.rotateRecoveryEpoch hrotate) hfresh hlength hm'
    hverified, hup.vaults, List.map_eq_nil_iff]

/-- The file with room for the markers of all its vaults gets new identities. -/
theorem exists_rotated (hup : Upgraded version source migrated) (h₃ : version < 3)
    (hc : Constraints migrated) (hverified : Database.verifyConnection phc migrated now = .ok ())
    (hoffline : migrated.runtimeStorageUsage = none) (hfresh : FreshIds migrated newIds) :
    ∃ n target, migrated.rotateRecoveryEpoch newIds t.rotatedAt = .ok (n, target) := by
  have hnone : migrated.retiredVaults = [] := by rw [hup.retiredVaults, if_neg (by omega)]
  have hcount : (migrated.vaults.length : Int) ≤ 100 :=
    (LogicalInvariants.of_verifyConnection hverified).vaultCount
  refine rotateRecoveryEpoch_succeeds hc hfresh (by simp [hnone]) hoffline ?_ ?_
  · exact hcount.trans (by decide)
  · rw [hnone, List.length_nil, Nat.cast_zero, zero_add]
    exact hcount.trans (by decide)

end

section

variable {phc : PhcParser} {file : DatabaseFile} {initialUser : Option InitialUser}
  {newIds : List String} {t : MigrationReadings} {version : Int}
  {uuids : List (Vector UInt8 16)}

theorem upgradable_of_migrated {user : InitialUser} {migrated target : Database}
    (h : Migrated phc file.db initialUser newIds t version user migrated target)
    (huser : version < 5 →
      ∃ email name passwordHash, InitialUser.new phc email name passwordHash = .ok user)
    (hdraw : version < 3 → drawIds (uuids.map uuidText) (file.db.vaults.map (·.id))
      file.db.vaults.length = some newIds) : file.db.Upgradable t := by
  obtain rfl := h.recordedVersion
  have h₁ := h.version_pos
  have h₇ := h.version_lt
  have hcopied := (verifyRecordedSchema_ok.mp h.copied).2.2.2.2
  have hmigrated : Database.verifyConnection phc migrated 0 = .ok () := by
    rw [h.result]
    exact verifyConnection_upgraded h.recorded h₇ h.verified
  obtain ⟨happlied, hepoch, hfits, husers⟩ := (stepsAccepted_iff h₁ h₇).mp
    ((hcopied.upgraded_iff huser (by omega)).mp h.verified)
  exact {
    appliedAt := happlied
    epochAt := hepoch
    rotatedAt := fun h₃ => by
      obtain ⟨n, hrotate⟩ := h.rotated h₃
      exact (verifyConnection_rotated_iff h.upgraded h₃ (h.constraints file.keys).1 hmigrated
        (hdraw h₃) hrotate).mp h.accepted
    copiedAt := fun h₅ => by
      have htable : .sessions ∈ Database.tablesAt file.db.recordedVersion := by
        have h₂ : 2 ≤ file.db.recordedVersion := by omega
        simp [Database.tablesAt, h₂]
      exact hcopied.logical.sessionsPerUser ((hcopied.tables _).mpr htable) (decide_eq_true h₅)
    highWater := fun h₅ => (hfits h₅).1
    sessions := fun h₂ h₅ => (hfits h₅).2.1 h₂
    retiredVaults := fun h₄ => (hfits (by omega)).2.2 h₄
    users := husers }

theorem migrated_of_upgradable {user : InitialUser}
    (hrecorded : Database.verifyRecordedSchema phc file.db t.sourceAt = .ok version)
    (h₇ : version < 7) (howner : version < 5 → initialUser = some user)
    (huser : version < 5 →
      ∃ email name passwordHash, InitialUser.new phc email name passwordHash = .ok user)
    (hdraw : version < 3 → drawIds (uuids.map uuidText) (file.db.vaults.map (·.id))
      file.db.vaults.length = some newIds) (h : file.db.Upgradable t) :
    ∃ migrated target,
      Migrated phc file.db initialUser newIds t version user migrated target := by
  obtain ⟨htable, hne, hhistory, hlast, hsource⟩ := verifyRecordedSchema_ok.mp hrecorded
  obtain rfl : file.db.recordedVersion = version := hlast
  have h₁ := hsource.supported.1
  have hcopied : Database.verifyRecordedSchema phc file.db.offline t.copiedAt =
      .ok file.db.recordedVersion := by
    rw [verifyRecordedSchema_offline]
    exact verifyRecordedSchema_ok.mpr ⟨htable, hne, hhistory, rfl, hsource.at_time h.copiedAt⟩
  have haccepted := (verifyRecordedSchema_ok.mp hcopied).2.2.2.2
  have hverified : ∀ m < 7 - file.db.recordedVersion.toNat, VersionInvariants phc
      (file.db.offline.upgraded user t.steps file.db.recordedVersion (m + 1))
      (file.db.recordedVersion + m + 1) (t.steps (file.db.recordedVersion + m + 1)).verifiedAt :=
    (haccepted.upgraded_iff huser (by omega)).mpr ((stepsAccepted_iff h₁ h₇).mpr
      ⟨h.appliedAt, h.epochAt, fun h₅ => ⟨h.highWater h₅, fun h₂ => h.sessions h₂ h₅,
        h.retiredVaults⟩, h.users⟩)
  obtain ⟨migrated, hmigrated⟩ : ∃ migrated, migrated = file.db.offline.upgraded user t.steps
    file.db.recordedVersion (7 - file.db.recordedVersion.toNat) := ⟨_, rfl⟩
  have hup : Upgraded file.db.recordedVersion file.db migrated :=
    hmigrated ▸ upgraded_to_last h₁ h₇
  have hconnection : ∀ now, Database.verifyConnection phc migrated now = .ok () := fun now =>
    hmigrated ▸ verifyConnection_upgraded hrecorded h₇ hverified
  have hc : Constraints migrated := by
    refine Keys.constraints ?_ (verifyRecordedSchema_ok.mp (verifyConnection_ok.mp
      (hconnection 0))).2.2.2.2
    rw [hmigrated]
    exact file.keys.offline.upgraded _
  by_cases h₃ : file.db.recordedVersion < 3
  · have hoffline : migrated.runtimeStorageUsage = none := by
      rw [hmigrated, runtimeStorageUsage_upgraded]
      rfl
    obtain ⟨n, target, hrotate⟩ := exists_rotated (t := t) hup h₃ hc (hconnection 0) hoffline
      (hup.freshIds h₃ (hdraw h₃))
    exact ⟨migrated, target, hrecorded, h₁, h₇, hcopied, howner, hmigrated, hverified,
      fun _ => ⟨n, hrotate⟩, fun hle => absurd h₃ (by omega),
      (verifyConnection_rotated_iff hup h₃ hc (hconnection 0) (hdraw h₃) hrotate).mpr
        (h.rotatedAt h₃)⟩
  · exact ⟨migrated, migrated, hrecorded, h₁, h₇, hcopied, howner, hmigrated, hverified,
      fun hlt => absurd hlt h₃, fun _ => rfl, hconnection _⟩

/-- A database that the validator of its version accepts can be migrated just if it is
`Upgradable`, and what comes out is a database that the server starts on. -/
theorem migration_succeeds_iff
    (hrecorded : Database.verifyRecordedSchema phc file.db t.sourceAt = .ok version)
    (h₇ : version < 7)
    (huser : version < 5 → ∃ user email name passwordHash, initialUser = some user ∧
      InitialUser.new phc email name passwordHash = .ok user)
    (hdraw : version < 3 → drawIds (uuids.map uuidText) (file.db.vaults.map (·.id))
      file.db.vaults.length = some newIds) :
    (∃ target, file.db.migrateVersionedDatabaseUnderLock phc initialUser newIds t = .ok target ∧
        Database.verifyConnection phc target t.verifiedAt = .ok ()) ↔
      file.db.Upgradable t := by
  constructor
  · rintro ⟨target, hok, -⟩
    obtain ⟨version', user, migrated, h⟩ := migrateVersionedDatabaseUnderLock_ok hok
    obtain rfl : version' = version := Except.ok.inj (h.recorded.symm.trans hrecorded)
    refine upgradable_of_migrated h (fun h₅ => ?_) hdraw
    obtain ⟨user', email, name, passwordHash, hsome, hnew⟩ := huser h₅
    obtain rfl : user' = user := Option.some.inj (hsome.symm.trans (h.owner h₅))
    exact ⟨email, name, passwordHash, hnew⟩
  · intro h
    obtain ⟨user, howner⟩ : ∃ user, version < 5 → initialUser = some user ∧
        ∃ email name passwordHash, InitialUser.new phc email name passwordHash = .ok user := by
      by_cases h₅ : version < 5
      · obtain ⟨user, email, name, passwordHash, hsome, hnew⟩ := huser h₅
        exact ⟨user, fun _ => ⟨hsome, email, name, passwordHash, hnew⟩⟩
      · exact ⟨⟨"", "", "", ""⟩, fun hlt => absurd hlt h₅⟩
    obtain ⟨migrated, target, hm⟩ := migrated_of_upgradable hrecorded h₇
      (fun h₅ => (howner h₅).1) (fun h₅ => (howner h₅).2) hdraw h
    exact ⟨target, hm.ok, hm.accepted⟩

end

/-- The vault of version 4 with its note comes through. -/
theorem migration_succeeds_of_note :
    ∃ target, notedFile.db.migrateVersionedDatabaseUnderLock onePhc (some firstOwner) [] atZero =
        .ok target ∧ Database.verifyConnection onePhc target 0 = .ok () := by
  have hrecorded : Database.verifyRecordedSchema onePhc notedFile.db 0 = .ok 4 := by decide +kernel
  have hnew : InitialUser.new onePhc "owner@example.test" "Owner" somePasswordHash =
    .ok firstOwner := by decide +kernel
  have hdraw : (4 : Int) < 3 → drawIds (([] : List (Vector UInt8 16)).map uuidText)
    (notedFile.db.vaults.map (·.id)) notedFile.db.vaults.length = some [] := by decide
  refine (migration_succeeds_iff (t := atZero) hrecorded (by decide)
    (fun _ => ⟨firstOwner, _, _, _, rfl, hnew⟩) hdraw).mpr ?_
  exact {
    appliedAt := fun v _ _ => (by decide : safeFrom 0 0)
    epochAt := by decide
    rotatedAt := by decide
    copiedAt := by decide
    highWater := by decide
    sessions := by decide
    retiredVaults := by decide
    users := by decide }

/-- A database of version 4 whose owner is signed in on 65 devices. -/
def crowdedFile : DatabaseFile where
  db := { notedFile.db with
    sessions := (List.range 65).map fun n =>
      { tokenHash := hexEncode (UInt8.ofNat n :: List.replicate 31 0), userId := 0, createdAt := 0,
        expiresAt := 1000, revokedAt := none } }
  keys := by constructor <;> decide +kernel

/-- Version 4 counts the sessions of all users only. -/
theorem recorded_crowdedFile :
    Database.verifyRecordedSchema onePhc crowdedFile.db 0 = .ok 4 := by
  have hnoted : Database.verifyRecordedSchema onePhc notedFile.db 0 = .ok 4 := by decide +kernel
  obtain ⟨htable, hne, hhistory, hlast, hv⟩ := verifyRecordedSchema_ok.mp hnoted
  have hvalid : ∀ s ∈ crowdedFile.db.sessions, s.Valid false := by
    intro s hs
    obtain ⟨n, -, rfl⟩ := List.mem_map.mp hs
    have htimes : safeFrom 0 0 ∧ safeFrom 1 1000 ∧ (0 : Int) < 1000 := by decide
    refine ⟨by simp, ?_, globOutside_hexEncode _, htimes.1, htimes.2.1, htimes.2.2, by simp⟩
    simp [sqlLength_hexEncode]
  refine verifyRecordedSchema_ok.mpr ⟨htable, hne, hhistory, hlast, { hv with
    foreignKeys := ⟨hv.foreignKeys.1, hv.foreignKeys.2.1, by decide, by decide, by decide⟩
    v7 := fun h₇ => absurd h₇ (by decide)
    logical := { hv.logical with
      session := fun _ => hvalid
      sessionCount := by decide
      sessionsPerUser := by decide } }⟩

/-- Version 4 has no limit for the sessions of one user, version 5 has, and its validator is run
before version 6 ends all sessions. -/
theorem migration_refuses_sessions :
    Database.verifyRecordedSchema onePhc crowdedFile.db 0 = .ok 4 ∧
      InitialUser.new onePhc "owner@example.test" "Owner" somePasswordHash = .ok firstOwner ∧
      ∀ target, crowdedFile.db.migrateVersionedDatabaseUnderLock onePhc (some firstOwner) []
        atZero ≠ .ok target := by
  have hnew : InitialUser.new onePhc "owner@example.test" "Owner" somePasswordHash =
    .ok firstOwner := by decide +kernel
  refine ⟨recorded_crowdedFile, hnew, fun target hok => ?_⟩
  obtain ⟨version, user, migrated, h⟩ := migrateVersionedDatabaseUnderLock_ok hok
  obtain rfl : version = 4 := Except.ok.inj (h.recorded.symm.trans recorded_crowdedFile)
  obtain rfl : firstOwner = user := Option.some.inj (h.owner (by decide))
  have hdraw : (4 : Int) < 3 → drawIds (([] : List (Vector UInt8 16)).map uuidText)
    (crowdedFile.db.vaults.map (·.id)) crowdedFile.db.vaults.length = some [] := by decide
  have hcount := (upgradable_of_migrated h (fun _ => ⟨_, _, _, hnew⟩) hdraw).sessions
    (by decide) (by decide)
  exact absurd hcount (by decide +kernel)

end Blackglass
