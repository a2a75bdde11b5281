import Blackglass.RevisionStore
import Blackglass.Lib.LastWriter

/-!
# The history of a database

Clients follow a vault by the revisions that were committed to it, and some of those are no
longer in the database: a purge keeps only the newest of each path.  `History db log` says
that `log` is everything that was ever committed, oldest first, and what a database still
holds of it.  A request either commits one revision, or purges, or leaves all this alone
(`Change`), and each of these keeps the relation.
-/

namespace Blackglass

open Rows

/-! ## Versions -/

namespace Database

/-- `SELECT version FROM vaults WHERE id=?`, or 0. -/
def currentVersion (db : Database) (id : String) : Int := ((db.vault? id).map (·.version)).getD 0

end Database

section

variable {db : Database} {id : String}

theorem currentVersion_eq (hc : Constraints db) {v : VaultRow} (hv : v ∈ db.vaults) :
    db.currentVersion v.id = v.version := by
  rw [Database.currentVersion, hc.vault?_eq hv]
  rfl

theorem vault?_mapVaults {f : VaultRow → VaultRow} (hid : ∀ v, (f v).id = v.id) :
    (db.mapVaults f).vault? id = (db.vault? id).map f := by
  have hcomp : ((fun v : VaultRow => decide (v.id = id)) ∘ f) = fun v => decide (v.id = id) :=
    funext fun v => by rw [Function.comp_apply, hid]
  rw [Database.vault?, Database.mapVaults_vaults, List.find?_map, hcomp]
  rfl

theorem currentVersion_mapVaults {f : VaultRow → VaultRow} (hid : ∀ v, (f v).id = v.id)
    (hversion : ∀ v, (f v).version = v.version) :
    (db.mapVaults f).currentVersion id = db.currentVersion id := by
  rw [Database.currentVersion, vault?_mapVaults hid, Option.map_map]
  exact congrArg (Option.getD · 0) (congrArg (Option.map · _) (funext hversion))

theorem vault?_refreshVault (other : String) (version : Int) :
    (db.refreshVault other version).vault? id = (db.vault? id).map fun v =>
      if v.id = other then { v with size := db.vaultSize other, version := version } else v :=
  vault?_mapVaults fun v => by split <;> rfl

theorem currentVersion_refreshVault_self (h : db.hasVault id = true) (version : Int) :
    (db.refreshVault id version).currentVersion id = version := by
  cases hv : db.vault? id with
  | none =>
    obtain ⟨v, hmem, hid⟩ := hasVault_iff.mp h
    have hnone := List.find?_eq_none.mp hv v hmem
    simp [hid] at hnone
  | some v =>
    rw [Database.currentVersion, vault?_refreshVault, hv]
    simp [(mem_of_vault? hv).2]

theorem currentVersion_refreshVault_of_ne {other : String} (h : id ≠ other) (version : Int) :
    (db.refreshVault other version).currentVersion id = db.currentVersion id := by
  rw [Database.currentVersion, vault?_refreshVault]
  cases hv : db.vault? id with
  | none => simp [Database.currentVersion, hv]
  | some v => simp [Database.currentVersion, hv, (mem_of_vault? hv).2, h]

theorem currentVersion_commitRevision (row : RevisionRow) (content : Option Blob)
    (h : db.hasVault row.vaultId = true) :
    (db.commitRevision row content).currentVersion id =
      if id = row.vaultId then db.nextRevisionUid else db.currentVersion id := by
  have hstored : ∀ stored : Database, stored.vaults = db.vaults →
      (stored.refreshVault row.vaultId db.nextRevisionUid).currentVersion id =
        if id = row.vaultId then db.nextRevisionUid else db.currentVersion id := by
    intro stored hvaults
    split
    · rename_i hid
      rw [hid]
      refine currentVersion_refreshVault_self ?_ _
      rw [Database.hasVault, hvaults]
      exact h
    · rename_i hid
      rw [currentVersion_refreshVault_of_ne hid, Database.currentVersion, Database.vault?, hvaults]
      rfl
  cases content with
  | none => exact hstored (db.withRevision row) rfl
  | some bytes => exact hstored _ rfl

end

/-! ## What a request does to the revisions -/

namespace Request

/-- Requests that take no vault away. -/
def keepsVaults : Request → Bool
  | deleteVault .. | migrateVault .. => false
  | _ => true

def purges : Request → Bool
  | purge .. => true
  | _ => false

end Request

/-- The revision a request has committed. -/
def Answer.revision? : Answer → Option Revision
  | stored revision => some revision
  | restored revision => revision
  | _ => none

/-- `Change db purges r db'`: a request has committed the revision `r`, or it has purged a
vault, or it has left the revisions and the versions of the vaults alone. -/
inductive Change (db : Database) : Bool → Option Revision → Database → Prop where
  | commit {row content} :
      db.hasVault row.vaultId = true → db.nextRevisionUid ≤ maxJsSafeInteger →
      Change db false (some { row with uid := db.nextRevisionUid }.toRevision)
        (db.commitRevision row content)
  | purge {vault row} :
      db.vault? vault = some row →
      Change db true none
        ((db.withoutRevisions (db.superseded vault)).refreshVault vault row.version)
  | quiet {db'} :
      db'.revisions = db.revisions → db'.sequence "revisions" = db.sequence "revisions" →
      (∀ id, db'.currentVersion id = db.currentVersion id) → Change db false none db'

theorem Change.refl (db : Database) : Change db false none db := .quiet rfl rfl fun _ => rfl

/-- A change that keeps the vaults. -/
theorem Change.of_vaults {db db' : Database} (hrevisions : db'.revisions = db.revisions)
    (hsequence : db'.sequence "revisions" = db.sequence "revisions")
    (hvaults : db'.vaults = db.vaults) : Change db false none db' := by
  refine .quiet hrevisions hsequence fun id => ?_
  rw [Database.currentVersion, Database.vault?, hvaults]
  rfl

/-- A new vault has version 0, as has a vault that does not exist. -/
theorem currentVersion_withVault {db : Database} {row : VaultRow} (hversion : row.version = 0)
    (id : String) :
    (db.withVault row).currentVersion id = db.currentVersion id := by
  simp only [Database.currentVersion, Database.vault?, Database.withVault_vaults,
    List.find?_append]
  cases hv : db.vaults.find? fun v => v.id = id with
  | some v => rfl
  | none =>
    by_cases hid : row.id = id
    · simp [hid, hversion]
    · simp [hid]

theorem Effect.change {db db' : Database} {t : Readings} {request : Request} {answer : Answer}
    (he : Effect db t request answer db') (hc : Constraints db)
    (hkeeps : request.keepsVaults = true) : Change db request.purges answer.revision? db' := by
  cases he with
  | createVault hok =>
    obtain ⟨-, -, -, rfl⟩ := createVaultInternal_ok hok
    exact .quiet rfl rfl (currentVersion_withVault rfl)
  | bindManagedKeyhash hok =>
    obtain ⟨-, rfl⟩ := bindManagedKeyhashForSession_ok hok
    exact .quiet rfl rfl fun id => currentVersion_mapVaults (fun v => by split <;> rfl)
      fun v => by split <;> rfl
  | renameVault hok =>
    obtain ⟨-, rfl⟩ := renameVaultForSession_ok hok
    exact .quiet rfl rfl fun id => currentVersion_mapVaults (fun v => by split <;> rfl)
      fun v => by split <;> rfl
  | deleteVault => cases hkeeps
  | migrateVault => cases hkeeps
  | inviteCollaborator hok =>
    obtain ⟨-, -, ⟨-, -, -, -, -, rfl⟩ | ⟨-, -, -, -, -, -, -, -, -, rfl⟩⟩ :=
      inviteCollaboratorForSession_ok hok
    · exact .refl _
    · exact .of_vaults rfl (find_setSequence_of_ne _ _ (by decide)) rfl
  | removeCollaborator hok =>
    obtain ⟨-, ⟨-, rfl⟩ | ⟨-, -, -, -, -, -, -, -, -, -, rfl⟩⟩ :=
      removeCollaboratorForSession_ok hok
    · exact .refl _
    · exact .of_vaults rfl rfl rfl
  | addEmptyRevision hok =>
    obtain ⟨hchecked, -, -, -, rfl, rfl⟩ := addEmptyRevisionInternal_ok hok
    exact .commit hchecked.exists.1 hchecked.uid
  | addFileRevision hok =>
    obtain ⟨hchecked, -, -, -, -, -, -, rfl, rfl⟩ := addFileRevisionInternal_ok hok
    exact .commit hchecked.exists.1 hchecked.uid
  | restore hok =>
    obtain ⟨rfl, -, rfl⟩ | ⟨target, source, content, hr⟩ := restoreInternal_ok hc hok
    · exact .refl _
    · rw [hr.result, hr.answer]
      exact .commit (hr.source_vault.symm ▸ hr.checked.exists.1) hr.checked.uid
  | purge hok =>
    obtain ⟨-, -, row, hrow, rfl⟩ := purgeInternal_ok hok
    exact .purge hrow

/-- A purge writes the version back that it has read. -/
theorem currentVersion_purged {db : Database} {vault : String} {row : VaultRow}
    (hrow : db.vault? vault = some row) (id : String) :
    ((db.withoutRevisions (db.superseded vault)).refreshVault vault row.version).currentVersion
      id = db.currentVersion id := by
  by_cases hid : id = vault
  · have hvault : db.hasVault vault = true :=
      hasVault_iff.mpr ⟨row, (mem_of_vault? hrow).1, (mem_of_vault? hrow).2⟩
    have hself : ((db.withoutRevisions (db.superseded vault)).refreshVault vault
        row.version).currentVersion vault = row.version := by
      refine currentVersion_refreshVault_self ?_ _
      exact hvault
    rw [hid, hself, Database.currentVersion, hrow]
    rfl
  · rw [currentVersion_refreshVault_of_ne hid]
    rfl

/-- Only a commit moves a version. -/
theorem Change.currentVersion_eq {db db' : Database} {purges : Bool}
    (h : Change db purges none db') (id : String) :
    db'.currentVersion id = db.currentVersion id := by
  cases h with
  | purge hrow => exact currentVersion_purged hrow id
  | quiet _ _ hcurrent => exact hcurrent id

theorem Change.sequence_eq {db db' : Database} {purges : Bool} (h : Change db purges none db') :
    db'.sequence "revisions" = db.sequence "revisions" := by
  cases h with
  | purge hrow => rfl
  | quiet _ hsequence _ => exact hsequence

/-! ## Histories -/

/-- `log` is every revision that was ever committed, oldest first.  The database has of
each path the newest one, and with every revision all newer ones of its path; the version
of a vault is not below any revision ever committed to it. -/
structure History (db : Database) (log : List Revision) : Prop where
  sorted : log.Pairwise fun x y => x.uid < y.uid
  pos : ∀ x ∈ log, 0 < x.uid
  version : ∀ x ∈ log, x.uid ≤ db.currentVersion x.vaultId
  versionNonneg : ∀ id, 0 ≤ db.currentVersion id
  sequence : ∀ id, db.currentVersion id ≤ (db.sequence "revisions").getD 0
  stored : ∀ r ∈ db.revisions, r.toRevision ∈ log
  retained : ∀ x ∈ log, ∃ r ∈ db.revisions, r.vaultId = x.vaultId ∧ r.path = x.path ∧
    x.uid ≤ r.uid
  newer : ∀ r ∈ db.revisions, ∀ x ∈ log, x.vaultId = r.vaultId → x.path = r.path →
    r.uid ≤ x.uid → ∃ s ∈ db.revisions, s.toRevision = x

/-- Nothing was purged yet. -/
def Complete (db : Database) (log : List Revision) : Prop :=
  ∀ x ∈ log, ∃ r ∈ db.revisions, r.toRevision = x

/-- Every row has a newest one of its path. -/
theorem exists_head {db : Database} {r : RevisionRow} (hr : r ∈ db.revisions) :
    ∃ head ∈ db.revisions, head.vaultId = r.vaultId ∧ head.path = r.path ∧ r.uid ≤ head.uid ∧
      head.uid ∈ db.headUids r.vaultId := by
  obtain ⟨head, hmem, hkey, hle, hmax⟩ : ∃ head ∈ db.revisionsOf r.vaultId,
      head.path = r.path ∧ r.uid ≤ head.uid ∧ head.uid ∈ db.headUids r.vaultId :=
    exists_groupMax (mem_revisionsOf.mpr ⟨hr, rfl⟩)
  obtain ⟨hmem, hid⟩ := mem_revisionsOf.mp hmem
  exact ⟨head, hmem, hid, hkey, hle, hmax⟩

namespace History

variable {db db' : Database} {log : List Revision}

theorem sequenceNonneg (h : History db log) : 0 ≤ (db.sequence "revisions").getD 0 :=
  (h.versionNonneg "").trans (h.sequence "")

theorem lt_nextRevisionUid (h : History db log) {x : Revision} (hx : x ∈ log) :
    x.uid < db.nextRevisionUid := by
  have hversion := h.version x hx
  have hsequence := h.sequence x.vaultId
  have hnext := getD_lt_nextRowid (db.sequence "revisions") (db.revisions.map (·.uid))
  exact lt_of_le_of_lt (hversion.trans hsequence) hnext

theorem commit (h : History db log) {row : RevisionRow} {content : Option Blob}
    (hvault : db.hasVault row.vaultId = true) : History (db.commitRevision row content)
      (log ++ [{ row with uid := db.nextRevisionUid }.toRevision]) := by
  have hnext : (db.sequence "revisions").getD 0 < db.nextRevisionUid := getD_lt_nextRowid _ _
  have hnonneg := h.sequenceNonneg
  have hcurrent : ∀ id,
      db.currentVersion id ≤ (db.commitRevision row content).currentVersion id := by
    intro id
    rw [currentVersion_commitRevision row content hvault]
    split
    · exact (h.sequence id).trans hnext.le
    · exact le_rfl
  refine ⟨?_, ?_, ?_, ?_, ?_, ?_, ?_, ?_⟩
  · refine List.pairwise_append.mpr ⟨h.sorted, List.pairwise_singleton _ _, fun x hx y hy => ?_⟩
    rw [List.mem_singleton.mp hy]
    exact h.lt_nextRevisionUid hx
  · intro x hx
    rcases List.mem_append.mp hx with hx | hx
    · exact h.pos x hx
    · rw [List.mem_singleton.mp hx]
      exact hnonneg.trans_lt hnext
  · intro x hx
    rcases List.mem_append.mp hx with hx | hx
    · exact (h.version x hx).trans (hcurrent _)
    · rw [List.mem_singleton.mp hx, currentVersion_commitRevision row content hvault]
      exact le_of_eq (if_pos rfl).symm
  · exact fun id => (h.versionNonneg id).trans (hcurrent id)
  · intro id
    rw [currentVersion_commitRevision row content hvault, commitRevision_sequence]
    split
    · exact le_rfl
    · exact (h.sequence id).trans hnext.le
  · intro r hr
    rw [commitRevision_revisions] at hr
    rcases List.mem_append.mp hr with hr | hr
    · exact List.mem_append_left _ (h.stored r hr)
    · rw [List.mem_singleton.mp hr]
      exact List.mem_append_right _ (List.mem_singleton_self _)
  · intro x hx
    rw [commitRevision_revisions]
    rcases List.mem_append.mp hx with hx | hx
    · obtain ⟨r, hr, hkept⟩ := h.retained x hx
      exact ⟨r, List.mem_append_left _ hr, hkept⟩
    · rw [List.mem_singleton.mp hx]
      exact ⟨_, List.mem_append_right _ (List.mem_singleton_self _), rfl, rfl, le_rfl⟩
  · intro r hr x hx hid hpath hle
    rw [commitRevision_revisions] at hr ⊢
    rcases List.mem_append.mp hx with hx | hx
    · rcases List.mem_append.mp hr with hr | hr
      · obtain ⟨s, hs, heq⟩ := h.newer r hr x hx hid hpath hle
        exact ⟨s, List.mem_append_left _ hs, heq⟩
      · rw [List.mem_singleton.mp hr] at hle
        exact absurd (h.lt_nextRevisionUid hx) (not_lt.mpr hle)
    · exact ⟨_, List.mem_append_right _ (List.mem_singleton_self _),
        (List.mem_singleton.mp hx).symm⟩

theorem purge (h : History db log) (hc : Constraints db) {vault : String} {row : VaultRow}
    (hrow : db.vault? vault = some row) :
    History ((db.withoutRevisions (db.superseded vault)).refreshVault vault row.version) log := by
  have hmem : ∀ {r}, r ∈ ((db.withoutRevisions (db.superseded vault)).refreshVault vault
      row.version).revisions ↔
        r ∈ db.revisions ∧ (r.vaultId = vault → r.uid ∈ db.headUids vault) := by
    intro r
    refine List.mem_filter.trans (and_congr_right fun _ => ?_)
    simp [Database.superseded, or_iff_not_imp_left]
  refine ⟨h.sorted, h.pos, ?_, ?_, ?_, ?_, ?_, ?_⟩
  · intro x hx
    rw [currentVersion_purged hrow]
    exact h.version x hx
  · intro id
    rw [currentVersion_purged hrow]
    exact h.versionNonneg id
  · intro id
    rw [currentVersion_purged hrow]
    exact h.sequence id
  · exact fun r hr => h.stored r (hmem.mp hr).1
  · intro x hx
    obtain ⟨r, hr, hid, hpath, hle⟩ := h.retained x hx
    obtain ⟨head, hhead, hhid, hhpath, hhle, hmax⟩ := exists_head hr
    refine ⟨head, hmem.mpr ⟨hhead, fun hv => ?_⟩, hhid.trans hid, hhpath.trans hpath,
      hle.trans hhle⟩
    rw [← hv, hhid]
    exact hmax
  · intro r hr x hx hid hpath hle
    obtain ⟨hr, hhead⟩ := hmem.mp hr
    obtain ⟨s, hs, rfl⟩ := h.newer r hr x hx hid hpath hle
    refine ⟨s, hmem.mpr ⟨hs, fun hv => ?_⟩, rfl⟩
    -- nothing of the path is newer than `r`, so that `s` is `r`
    have huid := hhead (Eq.trans (Eq.symm hid) hv)
    obtain ⟨r₀, hr₀, -, heq, hmax⟩ := mem_headUids.mp huid
    rw [hc.eq_of_revisionUid hr₀ hr heq] at hmax
    rw [le_antisymm (hmax s hs hv hpath) hle]
    exact huid

theorem quiet (h : History db log) (hrevisions : db'.revisions = db.revisions)
    (hsequence : db'.sequence "revisions" = db.sequence "revisions")
    (hcurrent : ∀ id, db'.currentVersion id = db.currentVersion id) : History db' log := by
  obtain ⟨h₁, h₂, h₃, h₄, h₅, h₆, h₇, h₈⟩ := h
  refine ⟨h₁, h₂, ?_, ?_, ?_, ?_, ?_, ?_⟩
  · simpa only [hcurrent] using h₃
  · simpa only [hcurrent] using h₄
  · simpa only [hcurrent, hsequence] using h₅
  · simpa only [hrevisions] using h₆
  · simpa only [hrevisions] using h₇
  · simpa only [hrevisions] using h₈

/-- What a request did to the revisions extends the history by what it committed. -/
theorem change (h : History db log) (hc : Constraints db) {purges : Bool} {r : Option Revision}
    (hchange : Change db purges r db') : History db' (log ++ r.toList) := by
  cases hchange with
  | commit hvault _ => exact h.commit hvault
  | purge hrow => simpa using h.purge hc hrow
  | quiet hrevisions hsequence hcurrent => simpa using h.quiet hrevisions hsequence hcurrent

end History

/-- Without a purge nothing is lost. -/
theorem Complete.change {db db' : Database} {log : List Revision} (h : Complete db log)
    {r : Option Revision} (hchange : Change db false r db') : Complete db' (log ++ r.toList) := by
  intro x hx
  cases hchange with
  | commit =>
    rw [commitRevision_revisions]
    rcases List.mem_append.mp hx with hx | hx
    · obtain ⟨r, hr, rfl⟩ := h x hx
      exact ⟨r, List.mem_append_left _ hr, rfl⟩
    · rw [List.mem_singleton.mp hx]
      exact ⟨_, List.mem_append_right _ (List.mem_singleton_self _), rfl⟩
  | quiet hrevisions =>
    rw [hrevisions]
    exact h x (by simpa using hx)

/-! ## Rows in the order of their commits -/

/-- `ORDER BY uid ASC`. -/
def sortedRevisions (rows : List RevisionRow) : List Revision :=
  (rows.insertionSort fun a b => a.uid ≤ b.uid).map (·.toRevision)

section

variable {rows : List RevisionRow}

theorem mem_sortedRevisions {x : Revision} :
    x ∈ sortedRevisions rows ↔ ∃ r ∈ rows, r.toRevision = x := by
  simp [sortedRevisions]

theorem pairwise_sortedRevisions (h : (rows.map (·.uid)).Nodup) :
    (sortedRevisions rows).Pairwise fun x y => x.uid < y.uid := by
  have : Std.Total fun a b : RevisionRow => a.uid ≤ b.uid := ⟨fun a b => le_total a.uid b.uid⟩
  have : IsTrans RevisionRow fun a b => a.uid ≤ b.uid := ⟨fun _ _ _ => le_trans⟩
  have hle := List.pairwise_insertionSort (fun a b : RevisionRow => a.uid ≤ b.uid) rows
  have hperm := List.perm_insertionSort (fun a b : RevisionRow => a.uid ≤ b.uid) rows
  have hne : (rows.insertionSort fun a b => a.uid ≤ b.uid).Pairwise fun a b => a.uid ≠ b.uid :=
    List.pairwise_map.mp ((hperm.map _).nodup_iff.mpr h)
  exact List.pairwise_map.mpr (hle.imp₂ (fun _ _ h₁ h₂ => lt_of_le_of_ne h₁ h₂) hne)

/-- A sorted list is known by its elements. -/
theorem eq_of_sorted {xs ys : List Revision} (hxs : xs.Pairwise fun x y => x.uid < y.uid)
    (hys : ys.Pairwise fun x y => x.uid < y.uid) (h : ∀ x, x ∈ xs ↔ x ∈ ys) : xs = ys := by
  have : Std.Irrefl fun x y : Revision => x.uid < y.uid := ⟨fun x => lt_irrefl x.uid⟩
  have : Std.Antisymm fun x y : Revision => x.uid < y.uid :=
    ⟨fun _ _ h₁ h₂ => absurd h₁ (lt_asymm h₂)⟩
  exact hxs.eq_of_mem_iff hys h

theorem nodup_of_sorted {xs : List Revision} (h : xs.Pairwise fun x y => x.uid < y.uid) :
    (xs.map (·.uid)).Nodup :=
  (List.pairwise_map.mpr h).imp ne_of_lt

theorem eq_of_uid {xs : List Revision} (h : xs.Pairwise fun x y => x.uid < y.uid) {x y : Revision}
    (hx : x ∈ xs) (hy : y ∈ xs) (huid : x.uid = y.uid) : x = y :=
  List.inj_on_of_nodup_map (nodup_of_sorted h) hx hy huid

theorem pageByUid_eq (limit : Int) : Database.pageByUid rows limit =
    (sortedRevisions rows).take (min 1024 (max 1 limit)).toNat :=
  List.map_take

end

/-- The selection of a page, in order, has no two rows of one `uid`. -/
theorem Constraints.pairwise_filter {db : Database} (hc : Constraints db)
    (p : RevisionRow → Bool) :
    (sortedRevisions (db.revisions.filter p)).Pairwise fun x y => x.uid < y.uid :=
  pairwise_sortedRevisions (hc.revisionUid.sublist (List.filter_sublist.map _))

/-- Where nothing was purged, a page of changes is the next piece of the history. -/
theorem listChangesPage_eq {db : Database} {log : List Revision} (h : History db log)
    (hc : Constraints db) (hcomplete : Complete db log) (vault : String)
    (after through limit : Int) :
    db.listChangesPage vault after through limit =
      (log.filter fun x => x.vaultId = vault && after < x.uid && x.uid ≤ through).take
        (min 1024 (max 1 limit)).toNat := by
  rw [Database.listChangesPage, pageByUid_eq]
  congr 1
  refine eq_of_sorted (hc.pairwise_filter _) (h.sorted.filter _) fun x => ?_
  rw [mem_sortedRevisions, List.mem_filter]
  constructor
  · rintro ⟨r, hr, rfl⟩
    obtain ⟨hr, hsel⟩ := List.mem_filter.mp hr
    exact ⟨h.stored r hr, hsel⟩
  · rintro ⟨hx, hsel⟩
    obtain ⟨r, hr, rfl⟩ := hcomplete x hx
    exact ⟨r, List.mem_filter.mpr ⟨hr, hsel⟩, rfl⟩

/-- The history of a database that nothing is known to be purged from. -/
def Database.history (db : Database) : List Revision := sortedRevisions db.revisions

theorem complete_history (db : Database) : Complete db db.history :=
  fun _ hx => mem_sortedRevisions.mp hx

/-- A database that the verifier accepts has a history. -/
theorem LogicalInvariants.history {phc : PhcParser} {db : Database} {now : Int}
    (h : LogicalInvariants phc db true true now) (hc : Constraints db) :
    History db db.history := by
  have hstore := h.revisionStore
  have hcurrent : ∀ id, db.currentVersion id = 0 ∨ ∃ v ∈ db.vaults, v.id = id ∧
      db.currentVersion id = v.version := by
    intro id
    cases hv : db.vault? id with
    | none => exact .inl (by rw [Database.currentVersion, hv]; rfl)
    | some v =>
      refine .inr ⟨v, (mem_of_vault? hv).1, (mem_of_vault? hv).2, ?_⟩
      rw [Database.currentVersion, hv]
      rfl
  refine ⟨pairwise_sortedRevisions hc.revisionUid, ?_, ?_, ?_, ?_, ?_, ?_, ?_⟩
  · intro x hx
    obtain ⟨r, hr, rfl⟩ := mem_sortedRevisions.mp hx
    exact zero_lt_one.trans_le (h.revision r hr).1.1
  · intro x hx
    obtain ⟨r, hr, rfl⟩ := mem_sortedRevisions.mp hx
    obtain ⟨v, hv, hid⟩ := hasVault_iff.mp (hc.revisionVault r hr)
    have hle := (hstore.highWater v hv).2.1 r hr hid.symm
    rw [← currentVersion_eq hc hv, hid] at hle
    exact hle
  · intro id
    rcases hcurrent id with hzero | ⟨v, hv, -, hversion⟩
    · exact hzero.ge
    · rw [hversion]
      exact (hstore.highWater v hv).1
  · intro id
    rcases hcurrent id with hzero | ⟨v, hv, -, hversion⟩
    · rw [hzero]
      exact hstore.sequenceNonneg
    · rw [hversion]
      exact (hstore.highWater v hv).2.2
  · exact fun r hr => mem_sortedRevisions.mpr ⟨r, hr, rfl⟩
  · intro x hx
    obtain ⟨r, hr, rfl⟩ := mem_sortedRevisions.mp hx
    exact ⟨r, hr, rfl, rfl, le_rfl⟩
  · exact fun _ _ x hx _ _ _ => mem_sortedRevisions.mp hx

end Blackglass
