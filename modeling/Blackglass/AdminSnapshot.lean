import Blackglass.Lib.Joins
import Blackglass.RevisionStore
import Blackglass.Users

/-!
# The admin snapshot

`admin_snapshot` reports every vault with what it stores, in one query that joins the vaults with
grouped revisions.  The query is given here as it is written: the heads of paths are joined by
vault, path and uid, the latest revisions by uid alone.  On a verified database it has one row for
each vault, with the numbers that a count over paths and revisions gives (`referenceVault`).

Sums are integers without a bound; SQLite would fail the query instead.
-/

namespace Blackglass

open Rows Outcome

/-! ## What is reported -/

inductive EncryptionMode where
  | customPassword
  | managed
deriving DecidableEq

structure AdminVault where
  id : String
  name : String
  createdAt : Int
  encryptionMode : EncryptionMode
  encryptionVersion : Int
  currentRevision : Int
  liveBytes : Int
  retainedBytes : Int
  fileCount : Int
  deletedCount : Int
  latestActivityAt : Option Int
  latestDevice : Option String
  ownerUserId : Int
  activeCollaborators : Int
deriving DecidableEq

inductive EventType where
  | deleted
  | folder
  | revision
deriving DecidableEq

structure AdminActivity where
  timestamp : Int
  vaultId : String
  vaultName : String
  device : String
  eventType : EventType
  extension : String
  size : Int
  revision : Int
  userId : Int
deriving DecidableEq

structure AdminSession where
  userId : Int
  createdAt : Int
  expiresAt : Int
  revokedAt : Option Int
deriving DecidableEq

structure AdminUser where
  id : Int
  email : String
  name : String
  status : UserStatus
  role : UserRole
  ownedVaults : Int
  sharedVaults : Int
  sessions : Int
  retainedBytes : Int
deriving DecidableEq

structure AdminDatabaseSnapshot where
  schemaVersion : Int
  maxSessions : Int
  vaults : List AdminVault
  activity : List AdminActivity
  sessions : List AdminSession
  users : List AdminUser
  activeUsers : Int
  disabledUsers : Int
  userCount : Int
  activeSessions : Int
  sessionCount : Int
  logicalBytes : Int
  retainedBytes : Int
  vaultCount : Int
  activityCount : Int
  membershipCount : Int
  activeMemberships : Int
  mismatchedDataHosts : Int
  selfRegistrationEnabled : Bool
deriving DecidableEq

/-! ## The queries -/

/-- A row of `latest_path`. -/
structure LatestPath where
  vaultId : String
  path : String
  uid : Option Int

/-- A row of `per_vault`. -/
structure PerVault where
  vaultId : String
  retainedBytes : Int
  fileCount : Int
  deletedCount : Int

/-- A row of `latest_revision`. -/
structure LatestRevision where
  vaultId : String
  ts : Int
  device : String

namespace Database

/-- `SELECT vault_id,path,MAX(uid) uid FROM revisions GROUP BY vault_id,path`. -/
def latestPath (db : Database) : List LatestPath :=
  (groupBy (fun r => (r.vaultId, r.path)) db.revisions).map fun (key, rows) =>
    { vaultId := key.1, path := key.2, uid := (rows.map (·.uid)).max? }

/-- `revisions r LEFT JOIN latest_path lp ON lp.vault_id=r.vault_id AND lp.path=r.path AND
lp.uid=r.uid`. -/
def withLatestPath (db : Database) : List (RevisionRow × Option LatestPath) :=
  leftJoin (fun r lp => lp.vaultId = r.vaultId && lp.path = r.path && lp.uid = some r.uid)
    db.revisions db.latestPath

/-- `lp.uid=r.uid`, where `lp` may be missing. -/
def sameUid (row : RevisionRow × Option LatestPath) : Bool :=
  row.2.bind (·.uid) = some row.1.uid

/-- `per_vault`. -/
def perVault (db : Database) : List PerVault :=
  (groupBy (fun row => row.1.vaultId) db.withLatestPath).map fun (vaultId, rows) =>
    { vaultId
      retainedBytes := sumOf (·.1.size) rows
      fileCount := sumOf
        (fun row => if sameUid row && !row.1.deleted && !row.1.folder then 1 else 0) rows
      deletedCount := sumOf (fun row => if sameUid row && row.1.deleted then 1 else 0) rows }

/-- `SELECT vault_id,MAX(uid) uid FROM revisions GROUP BY vault_id`. -/
def latestUids (db : Database) : List (String × Option Int) :=
  (groupBy (·.vaultId) db.revisions).map fun (vaultId, rows) =>
    (vaultId, (rows.map (·.uid)).max?)

/-- `latest_revision`. -/
def latestRevision (db : Database) : List LatestRevision :=
  (join (fun r x => x.2 = some r.uid) db.revisions db.latestUids).map fun (r, _) =>
    { vaultId := r.vaultId, ts := r.ts, device := r.device }

def activeCollaborators (db : Database) (id : String) : Int :=
  (db.memberships.filter fun m => m.vaultId = id && m.revokedAt.isNone).length

/-- The vaults with what was joined to them. -/
def vaultRows (db : Database) :
    List ((VaultRow × Option PerVault) × Option LatestRevision) :=
  leftJoin (fun row l => l.vaultId = row.1.id)
    (leftJoin (fun v p => p.vaultId = v.id) db.vaults db.perVault) db.latestRevision

def adminVault (db : Database) (row : (VaultRow × Option PerVault) × Option LatestRevision) :
    AdminVault :=
  let ((v, p), l) := row
  { id := v.id
    name := v.name
    createdAt := v.created
    encryptionMode := if v.password.isNone then .customPassword else .managed
    encryptionVersion := v.encryptionVersion
    currentRevision := v.version
    liveBytes := v.size
    retainedBytes := (p.map (·.retainedBytes)).getD 0
    fileCount := (p.map (·.fileCount)).getD 0
    deletedCount := (p.map (·.deletedCount)).getD 0
    latestActivityAt := l.map (·.ts)
    latestDevice := l.map (·.device)
    ownerUserId := v.ownerUserId
    activeCollaborators := db.activeCollaborators v.id }

def adminVaults (db : Database) : List AdminVault :=
  ((db.vaultRows.insertionSort fun a b => a.1.1.created ≤ b.1.1.created).take 100).map
    db.adminVault

def adminActivity (db : Database) : List AdminActivity :=
  (((join (fun r v => v.id = r.vaultId) db.revisions db.vaults).insertionSort
    fun a b => b.1.uid ≤ a.1.uid).take 100).map fun (r, v) =>
      { timestamp := r.ts
        vaultId := r.vaultId
        vaultName := v.name
        device := r.device
        eventType := if r.deleted then .deleted else if r.folder then .folder else .revision
        extension := r.extension
        size := r.size
        revision := r.uid
        userId := r.userId }

def adminSessions (db : Database) : List AdminSession :=
  ((db.sessions.insertionSort fun a b => b.createdAt ≤ a.createdAt).take 100).map fun s =>
    { userId := s.userId, createdAt := s.createdAt, expiresAt := s.expiresAt,
      revokedAt := s.revokedAt }

def adminUser (db : Database) (u : UserRow) : AdminUser :=
  { id := u.id
    email := u.email
    name := u.name
    status := u.status
    role := u.role
    ownedVaults := (db.vaults.filter fun v => v.ownerUserId = u.id).length
    sharedVaults := (db.memberships.filter fun m => m.userId = u.id && m.revokedAt.isNone).length
    sessions := (db.sessions.filter fun s => s.userId = u.id).length
    retainedBytes := sumOf (·.1.size)
      ((join (fun r v => v.id = r.vaultId) db.revisions db.vaults).filter
        fun row => row.2.ownerUserId = u.id) }

def adminUsers (db : Database) : List AdminUser :=
  ((db.users.insertionSort fun a b => a.id ≤ b.id).take maxUsers.toNat).map db.adminUser

/-- `admin_snapshot`, at a time `now`. -/
def adminSnapshot (db : Database) (expectedHost : String) (now : Int) :
    Except DbError AdminDatabaseSnapshot := do
  let selfRegistrationEnabled ← db.selfRegistrationEnabled
  return {
    schemaVersion := currentSchemaVersion
    maxSessions := Blackglass.maxSessions
    vaults := db.adminVaults
    activity := db.adminActivity
    sessions := db.adminSessions
    users := db.adminUsers
    activeUsers := sumOf (fun u => if u.status = .active then 1 else 0) db.users
    disabledUsers := sumOf (fun u => if u.status = .disabled then 1 else 0) db.users
    userCount := db.users.length
    activeSessions := sumOf (fun s => if s.live now then 1 else 0) db.sessions
    sessionCount := db.sessions.length
    logicalBytes := sumOf (·.size) db.vaults
    retainedBytes := sumOf (·.size) db.revisions
    vaultCount := db.vaults.length
    activityCount := db.revisions.length
    membershipCount := db.memberships.length
    activeMemberships := sumOf (fun m => if m.revokedAt.isNone then 1 else 0) db.memberships
    mismatchedDataHosts := (db.vaults.filter fun v => v.host ≠ expectedHost).length
    selfRegistrationEnabled }

/-! ## The reference -/

/-- The latest revision of every path of a vault. -/
def pathHeads (db : Database) (id : String) : List RevisionRow :=
  ((db.revisionsOf id).map (·.path)).dedup.filterMap fun path =>
    ((db.revisionsOf id).filter fun r => r.path = path).maxOn? (·.uid)

/-- The files of a vault that are there. -/
def liveFiles (db : Database) (id : String) : List RevisionRow :=
  (db.pathHeads id).filter fun r => !r.deleted && !r.folder

/-- What is to be reported of a vault. -/
def referenceVault (db : Database) (v : VaultRow) : AdminVault :=
  let latest := (db.revisionsOf v.id).maxOn? (·.uid)
  { id := v.id
    name := v.name
    createdAt := v.created
    encryptionMode := if v.password.isNone then .customPassword else .managed
    encryptionVersion := v.encryptionVersion
    currentRevision := v.version
    liveBytes := sumOf (·.size) (db.liveFiles v.id)
    retainedBytes := sumOf (·.size) (db.revisionsOf v.id)
    fileCount := (db.liveFiles v.id).length
    deletedCount := ((db.pathHeads v.id).filter (·.deleted)).length
    latestActivityAt := latest.map (·.ts)
    latestDevice := latest.map (·.device)
    ownerUserId := v.ownerUserId
    activeCollaborators := (db.memberships.filter fun m => m.vaultId = v.id && m.active).length }

end Database

/-! ## Heads -/

section Heads

variable {db : Database}

/-- The revision is the latest one of its path. -/
def Database.isPathHead (db : Database) (r : RevisionRow) : Bool :=
  attainsMax (fun r => (r.vaultId, r.path)) (·.uid) db.revisions r

/-- The revision is the latest one of its vault. -/
def Database.isVaultHead (db : Database) (r : RevisionRow) : Bool :=
  attainsMax (·.vaultId) (·.uid) db.revisions r

theorem isPathHead_iff {r : RevisionRow} (hr : r ∈ db.revisions) :
    db.isPathHead r = true ↔
      ∀ r' ∈ db.revisions, r'.vaultId = r.vaultId → r'.path = r.path → r'.uid ≤ r.uid := by
  rw [Database.isPathHead, attainsMax_iff hr]
  refine forall₂_congr fun r' _ => ?_
  rw [Prod.mk.injEq, and_imp]

theorem isVaultHead_iff {r : RevisionRow} (hr : r ∈ db.revisions) :
    db.isVaultHead r = true ↔
      ∀ r' ∈ db.revisions, r'.vaultId = r.vaultId → r'.uid ≤ r.uid :=
  attainsMax_iff hr

theorem nodup_revisions (hc : Constraints db) : db.revisions.Nodup := hc.revisionUid.of_map

theorem mem_pathHeads (hc : Constraints db) {id : String} {r : RevisionRow} :
    r ∈ db.pathHeads id ↔ r ∈ db.revisionsOf id ∧ db.isPathHead r = true := by
  have hunique : ∀ path, ∀ x ∈ (db.revisionsOf id).filter (fun r => r.path = path),
      ∀ y ∈ (db.revisionsOf id).filter (fun r => r.path = path), x.uid = y.uid → x = y := by
    intro path x hx y hy
    exact hc.eq_of_revisionUid (mem_revisionsOf.mp (List.mem_of_mem_filter hx)).1
      (mem_revisionsOf.mp (List.mem_of_mem_filter hy)).1
  simp only [Database.pathHeads, List.mem_filterMap, List.mem_dedup]
  constructor
  · rintro ⟨path, -, hmax⟩
    obtain ⟨hr, hmax⟩ := (maxOn?_eq_some_iff (hunique path)).mp hmax
    obtain ⟨hr, hpath⟩ := List.mem_filter.mp hr
    obtain ⟨hmem, hvault⟩ := mem_revisionsOf.mp hr
    refine ⟨hr, (isPathHead_iff hmem).mpr fun r' hr' hvault' hpath' => hmax r' ?_⟩
    refine List.mem_filter.mpr ⟨mem_revisionsOf.mpr ⟨hr', hvault'.trans hvault⟩, ?_⟩
    rw [hpath']
    exact hpath
  · rintro ⟨hr, hhead⟩
    obtain ⟨hmem, hvault⟩ := mem_revisionsOf.mp hr
    refine ⟨r.path, List.mem_map_of_mem hr, (maxOn?_eq_some_iff (hunique r.path)).mpr ?_⟩
    refine ⟨List.mem_filter.mpr ⟨hr, decide_eq_true rfl⟩, fun r' hr' => ?_⟩
    obtain ⟨hr', hpath'⟩ := List.mem_filter.mp hr'
    obtain ⟨hmem', hvault'⟩ := mem_revisionsOf.mp hr'
    exact (isPathHead_iff hmem).mp hhead r' hmem' (hvault'.trans hvault.symm)
      (of_decide_eq_true hpath')

theorem nodup_pathHeads (id : String) : (db.pathHeads id).Nodup := by
  refine (List.nodup_dedup _).filterMap fun path path' r hr hr' => ?_
  have hpath := (List.mem_filter.mp (List.maxOn?_mem hr)).2
  have hpath' := (List.mem_filter.mp (List.maxOn?_mem hr')).2
  exact (of_decide_eq_true hpath).symm.trans (of_decide_eq_true hpath')

/-- The heads, picked from the revisions of the vault. -/
theorem pathHeads_perm (hc : Constraints db) (id : String) :
    ((db.revisionsOf id).filter db.isPathHead).Perm (db.pathHeads id) := by
  have hnodup : ((db.revisionsOf id).filter db.isPathHead).Nodup :=
    ((nodup_revisions hc).filter _).filter _
  refine (List.perm_ext_iff_of_nodup hnodup (nodup_pathHeads id)).mpr fun r => ?_
  rw [List.mem_filter, mem_pathHeads hc]

/-- A condition on heads, asked of all revisions. -/
theorem filter_pathHeads_perm (hc : Constraints db) (id : String) (p : RevisionRow → Bool) :
    ((db.revisionsOf id).filter fun r => db.isPathHead r && p r).Perm
      ((db.pathHeads id).filter p) := by
  have hsplit : ((db.revisionsOf id).filter fun r => db.isPathHead r && p r) =
      ((db.revisionsOf id).filter db.isPathHead).filter p := by
    rw [List.filter_filter]
    exact List.filter_congr fun r _ => Bool.and_comm _ _
  rw [hsplit]
  exact (pathHeads_perm hc id).filter p

/-- The size that the verifier compares with is that of the live files. -/
theorem liveSize_eq_sumOf_liveFiles (hc : Constraints db) (id : String) :
    db.liveSize id = sumOf (·.size) (db.liveFiles id) := by
  rw [Database.liveFiles, ← sumOf_perm (filter_pathHeads_perm hc id _), Database.liveSize,
    Database.revisionsOf, List.filter_filter]
  refine congrArg _ (List.filter_congr fun r hr => ?_)
  by_cases hvault : r.vaultId = id
  · have hhead : decide (r.uid ∈ db.headUids id) = db.isPathHead r := by
      rw [Bool.eq_iff_iff, decide_eq_true_iff, isPathHead_iff hr, mem_headUids]
      constructor
      · rintro ⟨r', hr', hvault', huid, hmax⟩
        obtain rfl := hc.eq_of_revisionUid hr' hr huid
        exact fun x hx hx' => hmax x hx (hx'.trans hvault)
      · intro hmax
        exact ⟨r, hr, hvault, rfl, fun x hx hx' => hmax x hx (hx'.trans hvault.symm)⟩
    rw [hhead]
    simp [hvault, Bool.and_assoc]
  · simp [hvault]

end Heads

/-! ## What the joins find -/

section Joined

variable {db : Database}

/-- A revision is joined with its path just if it is the latest one there. -/
theorem withLatestPath_eq (db : Database) :
    db.withLatestPath = db.revisions.map fun r =>
      (r, if db.isPathHead r then some ⟨r.vaultId, r.path, some r.uid⟩ else none) := by
  refine leftJoin_eq_map fun r hr => ?_
  have hon : ((fun lp : LatestPath =>
        decide (lp.vaultId = r.vaultId) && decide (lp.path = r.path) &&
          decide (lp.uid = some r.uid)) ∘
      fun g : (String × String) × List RevisionRow =>
        (⟨g.1.1, g.1.2, (g.2.map (·.uid)).max?⟩ : LatestPath)) =
      fun g => decide ((g.2.map (·.uid)).max? = some r.uid) &&
        decide (g.1 = (r.vaultId, r.path)) := by
    funext g
    rw [Bool.and_comm, Bool.eq_iff_iff]
    simp [Prod.ext_iff]
  have hkey : (r.vaultId, r.path) ∈ db.revisions.map fun r => (r.vaultId, r.path) :=
    List.mem_map_of_mem hr
  rw [Database.latestPath, List.filter_map, hon,
    groupBy_filter_and (fun rows => decide ((rows.map (·.uid)).max? = some r.uid)) hkey]
  by_cases hhead : db.isPathHead r = true
  · have hmax := of_decide_eq_true hhead
    rw [if_pos hhead, if_pos (decide_eq_true hmax)]
    exact congrArg (fun uid => [(⟨r.vaultId, r.path, uid⟩ : LatestPath)]) hmax
  · have hmax : ¬decide (_ = some r.uid) = true := hhead
    rw [if_neg hhead, if_neg hmax]
    rfl

/-- The path that a revision is joined with. -/
def Database.joinedPath (db : Database) (r : RevisionRow) : RevisionRow × Option LatestPath :=
  (r, if db.isPathHead r then some ⟨r.vaultId, r.path, some r.uid⟩ else none)

theorem sameUid_joinedPath (r : RevisionRow) :
    Database.sameUid (db.joinedPath r) = db.isPathHead r := by
  cases hhead : db.isPathHead r <;> simp [Database.sameUid, Database.joinedPath, hhead]

/-- A count of heads in `per_vault`. -/
theorem sumOf_joinedPath (hc : Constraints db) (id : String) (p : RevisionRow → Bool) :
    sumOf (fun row => if Database.sameUid row && p row.1 then 1 else 0)
        ((db.revisionsOf id).map db.joinedPath) =
      ((db.pathHeads id).filter p).length := by
  rw [sumOf_map]
  simp only [sameUid_joinedPath]
  rw [← (filter_pathHeads_perm hc id p).length_eq, ← sumOf_ite_one]
  rfl

/-- The row of `per_vault` of a vault that has revisions. -/
def Database.perVaultOf (db : Database) (id : String) : Option PerVault :=
  if db.revisionsOf id = [] then none else some {
    vaultId := id
    retainedBytes := sumOf (·.size) (db.revisionsOf id)
    fileCount := (db.liveFiles id).length
    deletedCount := ((db.pathHeads id).filter (·.deleted)).length }

theorem perVault_filter (hc : Constraints db) (id : String) :
    db.perVault.filter (fun p => p.vaultId = id) = (db.perVaultOf id).toList := by
  have hrows : (db.revisions.map db.joinedPath).filter (fun row => row.1.vaultId = id) =
      (db.revisionsOf id).map db.joinedPath := List.filter_map
  have hmem : id ∈ (db.revisions.map db.joinedPath).map (fun row => row.1.vaultId) ↔
      db.revisionsOf id ≠ [] := by
    rw [List.map_map, List.mem_map, Ne, List.eq_nil_iff_forall_not_mem, not_forall]
    simp only [not_not, mem_revisionsOf]
    rfl
  have hfiles := sumOf_joinedPath hc id fun r => !r.deleted && !r.folder
  have hdeleted := sumOf_joinedPath hc id (·.deleted)
  have hjoined : db.withLatestPath = db.revisions.map db.joinedPath := withLatestPath_eq db
  have hgroup := groupBy_filter (fun row : RevisionRow × Option LatestPath => row.1.vaultId)
    (db.revisions.map db.joinedPath) id
  rw [hrows] at hgroup
  rw [Database.perVault, List.filter_map, hjoined]
  refine (congrArg (List.map _) hgroup).trans ?_
  by_cases hnil : db.revisionsOf id = []
  · rw [if_neg fun h => hmem.mp h hnil, Database.perVaultOf, if_pos hnil]
    rfl
  · rw [if_pos (hmem.mpr hnil), Database.perVaultOf, if_neg hnil, List.map_singleton]
    simp only [sumOf_map, Bool.and_assoc] at hfiles hdeleted ⊢
    rw [hfiles, hdeleted]
    rfl

/-- A revision is joined with the latest uid of a vault just if it is that revision: two vaults
have no uid in common. -/
theorem latestUids_filter (hc : Constraints db) {r : RevisionRow} (hr : r ∈ db.revisions) :
    db.latestUids.filter (fun x => x.2 = some r.uid) =
      (if db.isVaultHead r then some (r.vaultId, some r.uid) else none).toList := by
  have hon : (groupBy (·.vaultId) db.revisions).filter
        (fun g => decide ((g.2.map (·.uid)).max? = some r.uid)) =
      (groupBy (·.vaultId) db.revisions).filter
        (fun g => decide ((g.2.map (·.uid)).max? = some r.uid) && decide (g.1 = r.vaultId)) := by
    refine List.filter_congr fun g hg => ?_
    rw [Bool.eq_iff_iff, Bool.and_eq_true, decide_eq_true_iff, decide_eq_true_iff]
    refine ⟨fun hmax => ⟨hmax, ?_⟩, And.left⟩
    obtain ⟨r', hr', huid⟩ := List.mem_map.mp (List.max?_mem hmax)
    rw [mem_groupBy hg] at hr'
    obtain ⟨hr', hvault⟩ := List.mem_filter.mp hr'
    rw [← of_decide_eq_true hvault, hc.eq_of_revisionUid hr' hr huid]
  have hkey : r.vaultId ∈ db.revisions.map (·.vaultId) := List.mem_map_of_mem hr
  have hgroup := groupBy_filter_and
    (fun rows : List RevisionRow => decide ((rows.map (·.uid)).max? = some r.uid)) hkey
  rw [Database.latestUids, List.filter_map]
  refine (congrArg (List.map _) (hon.trans hgroup)).trans ?_
  by_cases hhead : db.isVaultHead r = true
  · have hmax := of_decide_eq_true hhead
    rw [if_pos hhead, if_pos (decide_eq_true hmax)]
    exact congrArg (fun uid => [(r.vaultId, uid)]) hmax
  · have hmax : ¬decide (_ = some r.uid) = true := hhead
    rw [if_neg hhead, if_neg hmax]
    rfl

theorem latestRevision_eq (hc : Constraints db) :
    db.latestRevision = (db.revisions.filter db.isVaultHead).map fun r =>
      ⟨r.vaultId, r.ts, r.device⟩ := by
  rw [Database.latestRevision, join_eq_filterMap fun r hr => latestUids_filter hc hr,
    List.map_filterMap, ← List.filterMap_eq_filter, List.map_filterMap]
  refine List.filterMap_congr fun r _ => ?_
  cases hhead : db.isVaultHead r <;> simp [Option.guard, hhead]

/-- The row of `latest_revision` of a vault that has revisions. -/
def Database.latestRevisionOf (db : Database) (id : String) : Option LatestRevision :=
  ((db.revisionsOf id).maxOn? (·.uid)).map fun r => ⟨r.vaultId, r.ts, r.device⟩

theorem latestRevision_filter (hc : Constraints db) (id : String) :
    db.latestRevision.filter (fun l => l.vaultId = id) = (db.latestRevisionOf id).toList := by
  have hunique : ∀ x ∈ db.revisionsOf id, ∀ y ∈ db.revisionsOf id, x.uid = y.uid → x = y :=
    fun x hx y hy => hc.eq_of_revisionUid (mem_revisionsOf.mp hx).1 (mem_revisionsOf.mp hy).1
  have hlatest : (db.revisions.filter db.isVaultHead).filter (fun r => r.vaultId = id) =
      ((db.revisionsOf id).maxOn? (·.uid)).toList := by
    rw [← filter_mem_option (nodup_revisions hc)
      fun r hr => (mem_revisionsOf.mp (List.maxOn?_mem hr)).1, List.filter_filter]
    refine List.filter_congr fun r hr => ?_
    have hmax := maxOn?_eq_some_iff (r := r) hunique
    rw [Bool.eq_iff_iff, Bool.and_eq_true, decide_eq_true_iff, decide_eq_true_iff,
      isVaultHead_iff hr, hmax, mem_revisionsOf]
    constructor
    · rintro ⟨rfl, hhead⟩
      refine ⟨⟨hr, rfl⟩, fun x hx => ?_⟩
      obtain ⟨hx, hvault⟩ := mem_revisionsOf.mp hx
      exact hhead x hx hvault
    · rintro ⟨⟨-, rfl⟩, hhead⟩
      exact ⟨rfl, fun x hx hvault => hhead x (mem_revisionsOf.mpr ⟨hx, hvault⟩)⟩
  rw [latestRevision_eq hc, List.filter_map]
  refine (congrArg (List.map _) hlatest).trans ?_
  rw [Database.latestRevisionOf]
  cases (db.revisionsOf id).maxOn? (·.uid) <;> rfl

/-- Every vault is joined with one row, or with none where it has no revisions. -/
theorem vaultRows_eq (hc : Constraints db) :
    db.vaultRows =
      db.vaults.map fun v => ((v, db.perVaultOf v.id), db.latestRevisionOf v.id) := by
  have hinner : leftJoin (fun v p => p.vaultId = v.id) db.vaults db.perVault =
      db.vaults.map fun v => (v, db.perVaultOf v.id) :=
    leftJoin_eq_map fun v _ => perVault_filter hc v.id
  rw [Database.vaultRows, hinner,
    leftJoin_eq_map fun row _ => latestRevision_filter hc row.1.id, List.map_map]
  rfl

end Joined

/-! ## The snapshot of a verified database -/

section Snapshot

variable {db : Database}

/-- A row of the query is the reference, where the size of the vault is that of its files. -/
theorem adminVault_eq (hc : Constraints db) {v : VaultRow} (hsize : v.size = db.liveSize v.id) :
    db.adminVault ((v, db.perVaultOf v.id), db.latestRevisionOf v.id) = db.referenceVault v := by
  rw [liveSize_eq_sumOf_liveFiles hc] at hsize
  rw [Database.adminVault, Database.referenceVault, Database.latestRevisionOf, Option.map_map,
    Option.map_map, Database.perVaultOf, ← hsize]
  by_cases hnil : db.revisionsOf v.id = []
  · have hheads : db.pathHeads v.id = [] := by rw [Database.pathHeads, hnil]; rfl
    simp only [hnil, if_true, Option.map_none, Option.getD_none, sumOf_nil, Database.liveFiles,
      hheads, List.filter_nil, List.length_nil]
    rfl
  · simp only [hnil, if_false, Option.map_some, Option.getD_some]
    rfl

/-- One row for each vault. -/
theorem adminVaults_perm (hc : Constraints db) (hcount : (db.vaults.length : Int) ≤ maxVaults)
    (hsize : ∀ v ∈ db.vaults, v.size = db.liveSize v.id) :
    db.adminVaults.Perm (db.vaults.map db.referenceVault) := by
  have hperm := List.perm_insertionSort (fun a b : (VaultRow × Option PerVault) ×
    Option LatestRevision => a.1.1.created ≤ b.1.1.created) db.vaultRows
  have hlength : db.vaultRows.length = db.vaults.length := by
    rw [vaultRows_eq hc, List.length_map]
  have hlimit : maxVaults = 100 := rfl
  rw [Database.adminVaults, List.take_of_length_le (by rw [hperm.length_eq]; omega)]
  refine (hperm.map db.adminVault).trans ?_
  rw [vaultRows_eq hc, List.map_map]
  refine List.Perm.of_eq (List.map_congr_left fun v hv => ?_)
  exact adminVault_eq hc (hsize v hv)

/-- What a user stores is what their vaults retain. -/
theorem adminUser_retainedBytes (db : Database) (u : UserRow) :
    (db.adminUser u).retainedBytes =
      sumOf (fun v => sumOf (·.size) (db.revisionsOf v.id))
        (db.vaults.filter fun v => v.ownerUserId = u.id) := by
  have hvault : ∀ v : VaultRow, (db.revisions.filter fun r => decide (v.id = r.vaultId)) =
      db.revisionsOf v.id :=
    fun v => List.filter_congr fun r _ => decide_eq_decide.mpr eq_comm
  rw [Database.adminUser]
  refine (congrArg (sumOf _)
    (filter_join fun v : VaultRow => decide (v.ownerUserId = u.id))).trans ?_
  rw [sumOf_join]
  simp only [hvault]

/-- Where every row is in a vault, the vaults add up to all rows. -/
theorem sumOf_vaults {α : Type} (hc : Constraints db) (f : α → Int) (vaultId : α → String)
    {rows : List α} (hrows : ∀ r ∈ rows, db.hasVault (vaultId r) = true) :
    sumOf (fun v => sumOf f (rows.filter fun r => vaultId r = v.id)) db.vaults = sumOf f rows := by
  refine sumOf_keys hc.vaultId.of_map fun r hr => ?_
  obtain ⟨v, hv, hid⟩ := hasVault_iff.mp (hrows r hr)
  refine ⟨v, hv, fun w hw => ?_⟩
  rw [decide_eq_true_iff, ← hid]
  exact ⟨fun h => hc.eq_of_vaultId hw hv h.symm, fun h => h ▸ rfl⟩

theorem sumOf_activeCollaborators (hc : Constraints db) :
    sumOf (fun v => ((db.memberships.filter fun m => m.vaultId = v.id && m.active).length : Int))
        db.vaults =
      sumOf (fun m => if m.revokedAt.isNone then 1 else 0) db.memberships := by
  have hlength : ∀ rows : List MembershipRow, (rows.length : Int) = sumOf (fun _ => 1) rows := by
    intro rows
    simp [sumOf]
  have hactive : (db.memberships.filter fun m => m.revokedAt.isNone) =
      db.memberships.filter (·.active) := rfl
  have hvaults := sumOf_vaults hc (fun _ => 1) MembershipRow.vaultId
    fun m (hm : m ∈ db.memberships.filter (·.active)) =>
      hc.membershipVault m (List.mem_of_mem_filter hm)
  rw [sumOf_ite_one, hactive, hlength, ← hvaults]
  simp only [hlength, List.filter_filter]

theorem adminUsers_perm (hcount : (db.users.length : Int) ≤ maxUsers) :
    db.adminUsers.Perm (db.users.map db.adminUser) := by
  have hperm := List.perm_insertionSort (fun a b : UserRow => a.id ≤ b.id) db.users
  rw [Database.adminUsers, List.take_of_length_le (by rw [hperm.length_eq]; omega)]
  exact hperm.map db.adminUser

/-- A verified database has its settings. -/
theorem selfRegistrationEnabled_ok (h : V7Invariants db) :
    ∃ enabled, db.selfRegistrationEnabled = .ok enabled := by
  have hne : (db.serverSettings.filter fun row => row.id = 1 && safeFrom 0 row.updatedAt) ≠ [] := by
    intro hnil
    have hone := h.settings
    rw [hnil] at hone
    cases hone
  obtain ⟨row, hrow⟩ := List.exists_mem_of_ne_nil _ hne
  obtain ⟨hmem, hid⟩ := List.mem_filter.mp hrow
  have hfound : (db.serverSettings.find? fun row => row.id = 1).isSome := by
    rw [List.find?_isSome]
    exact ⟨row, hmem, (Bool.and_eq_true _ _ ▸ hid).1⟩
  obtain ⟨found, hfind⟩ := Option.isSome_iff_exists.mp hfound
  exact ⟨found.selfRegistrationEnabled, by rw [Database.selfRegistrationEnabled, hfind]; rfl⟩

end Snapshot

/-- The snapshot reports the reference of every vault, and everything else adds up to it. -/
structure Database.Reported (db : Database) (snapshot : AdminDatabaseSnapshot) : Prop where
  vaults : snapshot.vaults.Perm (db.vaults.map db.referenceVault)
  users : (snapshot.users.map (·.id)).Perm (db.users.map (·.id))
  userBytes : ∀ u ∈ snapshot.users, u.retainedBytes =
    sumOf (·.retainedBytes) (snapshot.vaults.filter fun v => v.ownerUserId = u.id)
  vaultCount : snapshot.vaultCount = snapshot.vaults.length
  logicalBytes : snapshot.logicalBytes = sumOf (·.liveBytes) snapshot.vaults
  retainedBytes : snapshot.retainedBytes = sumOf (·.retainedBytes) snapshot.vaults
  activeMemberships : snapshot.activeMemberships = sumOf (·.activeCollaborators) snapshot.vaults

variable (s : Store) (expectedHost : String) (now : Int) in
/-- The admin snapshot of a verified database reports the reference aggregates. -/
theorem adminSnapshot_reported {phc : PhcParser} {verifiedAt : Int}
    (h : Database.verifyConnection phc s.db verifiedAt = .ok ()) :
    ∃ snapshot, s.db.adminSnapshot expectedHost now = .ok snapshot ∧
      s.db.Reported snapshot := by
  have hversion := (verifyRecordedSchema_ok.mp (verifyConnection_ok.mp h)).2.2.2.2
  have hlogical := LogicalInvariants.of_verifyConnection h
  obtain ⟨enabled, henabled⟩ := selfRegistrationEnabled_ok (hversion.v7 (by decide))
  have hvaults := adminVaults_perm s.constraints hlogical.vaultCount hlogical.size
  have husers := adminUsers_perm (hlogical.userCount rfl)
  have hsum : ∀ f : AdminVault → Int, sumOf f s.db.adminVaults =
      sumOf (fun v => f (s.db.referenceVault v)) s.db.vaults := by
    intro f
    rw [sumOf_perm hvaults, sumOf_map]
  refine ⟨_, by rw [Database.adminSnapshot, henabled]; rfl, hvaults, ?_, ?_, ?_, ?_, ?_, ?_⟩
  · have hids := husers.map (·.id)
    rw [List.map_map] at hids
    exact hids
  · intro u hu
    obtain ⟨row, -, rfl⟩ := List.mem_map.mp (husers.mem_iff.mp hu)
    rw [sumOf_perm (hvaults.filter _), List.filter_map, sumOf_map, adminUser_retainedBytes]
    rfl
  · rw [hvaults.length_eq, List.length_map]
  · rw [hsum]
    refine congrArg List.sum (List.map_congr_left fun v hv => ?_)
    rw [hlogical.size v hv, liveSize_eq_sumOf_liveFiles s.constraints]
    rfl
  · rw [hsum]
    exact (sumOf_vaults s.constraints _ RevisionRow.vaultId s.constraints.revisionVault).symm
  · rw [hsum]
    exact (sumOf_activeCollaborators s.constraints).symm

/-- A vault in which a note of three bytes was deleted. -/
theorem adminSnapshot_reported_of_note :
    Database.verifyConnection onePhc deletedNote.db 500 = .ok () ∧
      ∃ snapshot, deletedNote.db.adminSnapshot "h" 500 = .ok snapshot ∧
        deletedNote.db.Reported snapshot := by
  have hverified : Database.verifyConnection onePhc deletedNote.db 500 = .ok () := by
    decide +kernel
  exact ⟨hverified, adminSnapshot_reported deletedNote "h" 500 hverified⟩

end Blackglass
