import Blackglass.Recovery
import Blackglass.Request
import Blackglass.Lib.Transition

/-!
# The invariant of the revision store

A vault row repeats two facts about the vault's revisions: the size of its live files and
the version its clients have to reach.  Revisions, their contents and these two columns are
changed by ten operations, each with its own statements, and the verifier refuses a
database in which they disagree.  `RevisionStore` says that they agree; it is kept by every
online request and by the two offline operations that touch revisions.
-/

namespace Blackglass

open Rows Outcome Transition

/-! ## The rows of one vault -/

namespace Database

def revisionsOf (db : Database) (id : String) : List RevisionRow :=
  db.revisions.filter fun r => r.vaultId = id

end Database

/-- The sizes of the live file heads among the rows of one vault. -/
def liveSizeOf (rows : List RevisionRow) : Int :=
  sumOf (·.size) (rows.filter fun r =>
    r.uid ∈ groupMax (·.path) (·.uid) rows && !r.deleted && !r.folder)

section

variable {db : Database}

theorem mem_revisionsOf {id : String} {r : RevisionRow} :
    r ∈ db.revisionsOf id ↔ r ∈ db.revisions ∧ r.vaultId = id := by
  simp [Database.revisionsOf]

theorem mem_headUids {id : String} {uid : Int} :
    uid ∈ db.headUids id ↔ ∃ r ∈ db.revisions, r.vaultId = id ∧ r.uid = uid ∧
      ∀ r' ∈ db.revisions, r'.vaultId = id → r'.path = r.path → r'.uid ≤ uid := by
  rw [Database.headUids, mem_groupMax]
  constructor
  · rintro ⟨r, hr, huid, hmax⟩
    obtain ⟨hmem, hid⟩ := mem_revisionsOf.mp hr
    exact ⟨r, hmem, hid, huid, fun r' hr' hid' => hmax r' (mem_revisionsOf.mpr ⟨hr', hid'⟩)⟩
  · rintro ⟨r, hmem, hid, huid, hmax⟩
    refine ⟨r, mem_revisionsOf.mpr ⟨hmem, hid⟩, huid, fun r' hr' => ?_⟩
    obtain ⟨hr', hid'⟩ := mem_revisionsOf.mp hr'
    exact hmax r' hr' hid'

theorem liveSize_eq (db : Database) (id : String) :
    db.liveSize id = liveSizeOf (db.revisionsOf id) := by
  rw [Database.liveSize, liveSizeOf, Database.revisionsOf, List.filter_filter]
  refine congrArg _ (List.filter_congr fun r _ => ?_)
  cases decide (r.vaultId = id)
  · simp
  · rw [Bool.true_and, Bool.and_true]
    rfl

/-- The size that `refresh_vault` writes is the one the verifier computes: a head's `uid`
belongs to no other vault. -/
theorem vaultSize_eq_liveSize (hc : Constraints db) (id : String) :
    db.vaultSize id = db.liveSize id := by
  unfold Database.vaultSize Database.liveSize
  congr 1
  refine List.filter_congr fun r hr => ?_
  by_cases hhead : r.uid ∈ db.headUids id
  · obtain ⟨s, hs, hid, huid, -⟩ := mem_headUids.mp hhead
    have hvault : r.vaultId = id := by rw [hc.eq_of_revisionUid hr hs huid.symm, hid]
    simp [hvault]
  · simp [hhead]

/-- The live size does not depend on which vault the rows belong to. -/
theorem liveSizeOf_map {f : RevisionRow → RevisionRow} {rows : List RevisionRow}
    (huid : ∀ r, (f r).uid = r.uid) (hpath : ∀ r, (f r).path = r.path)
    (hsize : ∀ r, (f r).size = r.size) (hdeleted : ∀ r, (f r).deleted = r.deleted)
    (hfolder : ∀ r, (f r).folder = r.folder) : liveSizeOf (rows.map f) = liveSizeOf rows := by
  have hheads : ∀ uid, uid ∈ groupMax (·.path) (·.uid) (rows.map f) ↔
      uid ∈ groupMax (·.path) (·.uid) rows := by
    intro uid
    simp only [mem_groupMax, List.mem_map, exists_exists_and_eq_and, forall_exists_index, and_imp,
      forall_apply_eq_imp_iff₂, huid, hpath]
  simp only [liveSizeOf, sumOf, List.filter_map, List.map_map, Function.comp_def, hsize, huid,
    hheads, hdeleted, hfolder]

end

/-! ## The invariant -/

/-- Sizes, pieces and flags of a revision fit together. -/
def RevisionRow.Shaped (r : RevisionRow) : Prop :=
  0 ≤ r.size ∧ r.pieces = piecesOf r.size ∧ (r.folder = true ∨ r.deleted = true → r.size = 0)

/-- The version of a vault is a high-water mark of its revisions, and the sequence one of all
versions. -/
def VaultRow.HighWater (db : Database) (v : VaultRow) : Prop :=
  0 ≤ v.version ∧ (∀ r ∈ db.revisions, r.vaultId = v.id → r.uid ≤ v.version) ∧
    v.version ≤ (db.sequence "revisions").getD 0

/-- Revisions, their contents and the columns of the vaults that repeat facts about them. -/
structure RevisionTracking (db : Database) : Prop where
  sequenceNonneg : 0 ≤ (db.sequence "revisions").getD 0
  size : ∀ v ∈ db.vaults, v.size = db.liveSize v.id
  highWater : ∀ v ∈ db.vaults, v.HighWater db
  shaped : ∀ r ∈ db.revisions, r.Shaped
  content : ∀ r ∈ db.revisions, r.ContentValid db true

structure RevisionStore (db : Database) : Prop extends RevisionTracking db where
  vaultCount : (db.vaults.length : Int) ≤ maxVaults

/-- The number of pieces is the smallest that holds all bytes. -/
theorem piecesOf_bounds (size : Int) :
    (piecesOf size - 1) * revisionPieceSize < size ∧ size ≤ piecesOf size * revisionPieceSize := by
  unfold piecesOf revisionPieceSize
  omega

theorem VaultRow.HighWater.maxUidOf_le {db : Database} {v : VaultRow} (h : v.HighWater db) :
    db.maxUidOf v.id ≤ v.version := by
  refine maxOr0_le h.1 fun uid huid => ?_
  obtain ⟨r, hr, rfl⟩ := List.mem_map.mp huid
  obtain ⟨hmem, hid⟩ := List.mem_filter.mp hr
  exact h.2.1 r hmem (by simpa using hid)

/-- What the verifier accepts satisfies the invariant. -/
theorem LogicalInvariants.revisionStore {phc : PhcParser} {db : Database} {now : Int}
    (h : LogicalInvariants phc db true true now) : RevisionStore db where
  vaultCount := h.vaultCount
  sequenceNonneg := by
    cases hseq : db.sequence "revisions" with
    | none => simp
    | some seq =>
      obtain ⟨row, hrow, rfl⟩ := Option.map_eq_some_iff.mp hseq
      exact (h.sequenceRow row (List.mem_of_find?_eq_some hrow)).2.1
  size := h.size
  highWater := by
    intro v hv
    obtain ⟨-, -, -, -, -, -, -, hversion, -⟩ := h.vaultFields v hv
    refine ⟨hversion.1, fun r hr hid => ?_, (h.version v hv).2⟩
    have hrow : r.uid ∈ (db.revisionsOf v.id).map (·.uid) :=
      List.mem_map_of_mem (mem_revisionsOf.mpr ⟨hr, hid⟩)
    exact (le_maxOr0 hrow).trans (h.version v hv).1
  shaped := by
    intro r hr
    obtain ⟨-, -, -, -, -, hsize, -, hpieces, hempty, -, -⟩ := h.revision r hr
    refine ⟨hsize.1, ?_, fun hflag => (hempty hflag).1⟩
    rw [hpieces, piecesOf, revisionPieceSize]
    split <;> omega
  content := h.content

namespace RevisionTracking

variable {db : Database}

/-! ## Contents -/

/-- Contents of other revisions do not matter to a revision. -/
theorem contentValid_congr {db' : Database} {r : RevisionRow}
    (h : (db'.revisionContent.find? fun c => c.uid = r.uid) =
      db.revisionContent.find? fun c => c.uid = r.uid) :
    r.ContentValid db' true ↔ r.ContentValid db true := by
  simp only [RevisionRow.ContentValid, h]

/-- After a commit the new revision has just the bytes it was given, and the others keep
theirs. -/
theorem contentValid_commitRevision (h : RevisionTracking db) (hc : Constraints db)
    {row : RevisionRow} {content : Option Blob} (hinline : row.content = none)
    (hbytes : (row.size = 0 ∧ content = none) ∨
      (0 < row.size ∧ ∃ bytes, content = some bytes ∧ (bytes.length : Int) = row.size)) :
    ∀ r ∈ (db.commitRevision row content).revisions,
      r.ContentValid (db.commitRevision row content) true := by
  intro r hr
  rw [commitRevision_revisions] at hr
  rcases List.mem_append.mp hr with hr | hr
  · refine (contentValid_congr ?_).mpr (h.content r hr)
    have hlt : r.uid < db.nextRevisionUid := lt_nextRowid (List.mem_map_of_mem hr)
    rw [commitRevision_revisionContent, List.find?_append]
    cases content with
    | none => simp
    | some bytes => simp [hlt.ne']
  · have hold : db.revisionContent.find? (fun c => c.uid = db.nextRevisionUid) = none := by
      refine List.find?_eq_none.mpr fun c hcmem => ?_
      obtain ⟨s, hs, huid⟩ := hc.contentRevision c hcmem
      have hlt : s.uid < db.nextRevisionUid := lt_nextRowid (List.mem_map_of_mem hs)
      simpa [← huid] using hlt.ne
    rw [List.mem_singleton.mp hr]
    simp only [RevisionRow.ContentValid, if_true, commitRevision_revisionContent,
      List.find?_append, hold, hinline]
    rcases hbytes with ⟨hsize, rfl⟩ | ⟨hsize, bytes, rfl, hlength⟩
    · simp [hsize]
    · simp [hsize.ne', hlength]

/-- Deleting revisions takes away the contents of those and of no other. -/
theorem find_content_withoutRevisions (hc : Constraints db) {p : RevisionRow → Bool}
    {r : RevisionRow} (hr : r ∈ db.revisions) (hp : p r = false) :
    ((db.withoutRevisions p).revisionContent.find? fun c => c.uid = r.uid) =
      db.revisionContent.find? fun c => c.uid = r.uid := by
  rw [Database.withoutRevisions_revisionContent, List.find?_filter]
  congr 1
  funext c
  by_cases huid : c.uid = r.uid
  · have hstays : db.revisions.any (fun s => p s && s.uid = c.uid) = false := by
      rw [List.any_eq_false]
      intro s hs hgone
      simp only [Bool.and_eq_true, decide_eq_true_eq] at hgone
      rw [hc.eq_of_revisionUid hs hr (hgone.2.trans huid), hp] at hgone
      cases hgone.1
    simp [huid, huid ▸ hstays]
  · simp [huid]

theorem contentValid_withoutRevisions (h : RevisionTracking db) (hc : Constraints db)
    (p : RevisionRow → Bool) : ∀ r ∈ (db.withoutRevisions p).revisions,
      r.ContentValid (db.withoutRevisions p) true := by
  intro r hr
  obtain ⟨hmem, hkept⟩ := List.mem_filter.mp hr
  have hp : p r = false := by simpa using hkept
  exact (contentValid_congr (find_content_withoutRevisions hc hmem hp)).mpr (h.content r hmem)

/-! ## Vault rows -/

/-- Nothing but vaults, revisions, contents and the sequence matters. -/
theorem frame {db' : Database} (h : RevisionTracking db) (hvaults : db'.vaults = db.vaults)
    (hrevisions : db'.revisions = db.revisions)
    (hcontent : db'.revisionContent = db.revisionContent)
    (hsequence : db'.sequence "revisions" = db.sequence "revisions") : RevisionTracking db' where
  sequenceNonneg := by
    rw [hsequence]
    exact h.sequenceNonneg
  size := by
    simp only [Database.liveSize, Database.headUids, hvaults, hrevisions]
    exact h.size
  highWater := by
    simp only [VaultRow.HighWater, hvaults, hrevisions, hsequence]
    exact h.highWater
  shaped := by
    rw [hrevisions]
    exact h.shaped
  content := by
    simp only [RevisionRow.ContentValid, hrevisions, hcontent]
    exact h.content

theorem withRetiredIdentity (h : RevisionTracking db) {vaultId : String}
    {ownerUserId retiredAt : Int} :
    RevisionTracking (db.withRetiredIdentity vaultId ownerUserId retiredAt) :=
  h.frame rfl rfl rfl rfl

theorem mapMemberships (h : RevisionTracking db) {f : MembershipRow → MembershipRow} :
    RevisionTracking (db.mapMemberships f) := h.frame rfl rfl rfl rfl

/-- `refresh_vault` makes good for one vault whatever happened to its rows, provided the
version it writes is a high-water mark. -/
theorem of_refreshVault (hc : Constraints db) {id : String} {version : Int}
    (hnonneg : 0 ≤ (db.sequence "revisions").getD 0)
    (hsize : ∀ v ∈ db.vaults, v.id ≠ id → v.size = db.liveSize v.id)
    (hother : ∀ v ∈ db.vaults, v.id ≠ id → v.HighWater db)
    (hversion : 0 ≤ version ∧ (∀ r ∈ db.revisions, r.vaultId = id → r.uid ≤ version) ∧
      version ≤ (db.sequence "revisions").getD 0)
    (hshaped : ∀ r ∈ db.revisions, r.Shaped)
    (hcontent : ∀ r ∈ db.revisions, r.ContentValid db true) :
    RevisionTracking (db.refreshVault id version) where
  sequenceNonneg := hnonneg
  size := by
    intro v hv
    obtain ⟨w, hw, rfl⟩ := List.mem_map.mp hv
    by_cases hid : w.id = id
    · simp only [hid, if_true]
      exact vaultSize_eq_liveSize hc id
    · simp only [hid, if_false]
      exact hsize w hw hid
  highWater := by
    intro v hv
    obtain ⟨w, hw, rfl⟩ := List.mem_map.mp hv
    by_cases hid : w.id = id
    · simp only [hid, if_true]
      exact hversion
    · simp only [hid, if_false]
      exact hother w hw hid
  shaped := hshaped
  content := hcontent

/-- The rows of a vault decide its size. -/
theorem liveSize_congr {db' : Database} {id : String} (h : db'.revisionsOf id = db.revisionsOf id) :
    db'.liveSize id = db.liveSize id := by
  rw [liveSize_eq, liveSize_eq, h]

theorem commitRevision (h : RevisionTracking db) (hc : Constraints db) {row : RevisionRow}
    {content : Option Blob} (hvault : db.hasVault row.vaultId = true)
    (huser : db.hasUser row.userId = true) (hshaped : row.Shaped) (hinline : row.content = none)
    (hbytes : (row.size = 0 ∧ content = none) ∨
      (0 < row.size ∧ ∃ bytes, content = some bytes ∧ (bytes.length : Int) = row.size)) :
    RevisionTracking (db.commitRevision row content) := by
  have hnext : (db.sequence "revisions").getD 0 < db.nextRevisionUid := getD_lt_nextRowid _ _
  have hnonneg := h.sequenceNonneg
  -- what the vaults and their rows are before the refresh
  have hstored : ∀ stored : Database, stored.vaults = db.vaults →
      stored.revisions = db.revisions ++ [{ row with uid := db.nextRevisionUid }] →
      stored.sequence "revisions" = some db.nextRevisionUid → Constraints stored →
      (∀ r ∈ stored.revisions, r.ContentValid stored true) →
      RevisionTracking (stored.refreshVault row.vaultId db.nextRevisionUid) := by
    intro stored hvaults hrevisions hsequence hconstraints hcontent
    have hrows : ∀ id, id ≠ row.vaultId → stored.revisionsOf id = db.revisionsOf id := by
      intro id hid
      simp [Database.revisionsOf, hrevisions, hid.symm]
    refine of_refreshVault hconstraints ?_ ?_ ?_ ?_ ?_ hcontent
    · rw [hsequence, Option.getD_some]
      omega
    · intro v hv hid
      rw [hvaults] at hv
      rw [liveSize_congr (hrows v.id hid)]
      exact h.size v hv
    · intro v hv hid
      rw [hvaults] at hv
      obtain ⟨h₀, hmark, hseq⟩ := h.highWater v hv
      refine ⟨h₀, fun r hr hrid => ?_, ?_⟩
      · have hold : r ∈ db.revisionsOf v.id := hrows v.id hid ▸ mem_revisionsOf.mpr ⟨hr, hrid⟩
        exact hmark r (mem_revisionsOf.mp hold).1 hrid
      · rw [hsequence, Option.getD_some]
        omega
    · refine ⟨by omega, fun r hr _ => ?_, by rw [hsequence, Option.getD_some]⟩
      rw [hrevisions] at hr
      rcases List.mem_append.mp hr with hr | hr
      · exact (lt_nextRowid (List.mem_map_of_mem hr)).le
      · rw [List.mem_singleton.mp hr]
    · intro r hr
      rw [hrevisions] at hr
      rcases List.mem_append.mp hr with hr | hr
      · exact h.shaped r hr
      · rw [List.mem_singleton.mp hr]
        exact hshaped
  have hrow := hc.withRevision hvault huser
  have hcontent := h.contentValid_commitRevision hc hinline hbytes
  cases content with
  | none => exact hstored (db.withRevision row) rfl rfl (find_setSequence_self _ _ _) hrow hcontent
  | some bytes =>
    exact hstored _ rfl rfl (find_setSequence_self _ _ _) (hc.withStoredContent hvault huser)
      hcontent

/-- A purge of rows of one vault that keeps its version. -/
theorem purgeRows (h : RevisionTracking db) (hc : Constraints db) {p : RevisionRow → Bool}
    {id : String} {row : VaultRow} (hp : ∀ r, p r = true → r.vaultId = id)
    (hrow : db.vault? id = some row) :
    RevisionTracking ((db.withoutRevisions p).refreshVault id row.version) := by
  obtain ⟨hmem, hid⟩ := mem_of_vault? hrow
  have hrows : ∀ other, other ≠ id →
      (db.withoutRevisions p).revisionsOf other = db.revisionsOf other := by
    intro other hne
    simp only [Database.revisionsOf, Database.withoutRevisions_revisions, List.filter_filter]
    refine List.filter_congr fun r _ => ?_
    by_cases hother : r.vaultId = other
    · have hkept : p r = false := by
        cases hpr : p r with
        | false => rfl
        | true => exact absurd (hother.symm.trans (hp r hpr)) hne
      simp [hkept]
    · simp [hother]
  refine of_refreshVault (hc.withoutRevisions p) h.sequenceNonneg ?_ ?_ ?_ ?_
    (h.contentValid_withoutRevisions hc p)
  · intro v hv hne
    rw [liveSize_congr (hrows v.id hne)]
    exact h.size v hv
  · intro v hv _
    obtain ⟨h₀, hmark, hseq⟩ := h.highWater v hv
    exact ⟨h₀, fun r hr => hmark r (List.mem_of_mem_filter hr), hseq⟩
  · obtain ⟨h₀, hmark, hseq⟩ := h.highWater row hmem
    exact ⟨h₀, fun r hr hrid => hmark r (List.mem_of_mem_filter hr) (hrid.trans hid.symm), hseq⟩
  · exact fun r hr => h.shaped r (List.mem_of_mem_filter hr)

/-- An update of vault rows that leaves ids, sizes and versions alone. -/
theorem mapVaults (h : RevisionTracking db) {f : VaultRow → VaultRow} (hid : ∀ v, (f v).id = v.id)
    (hsize : ∀ v, (f v).size = v.size) (hversion : ∀ v, (f v).version = v.version) :
    RevisionTracking (db.mapVaults f) where
  sequenceNonneg := h.sequenceNonneg
  size := by
    intro v hv
    obtain ⟨w, hw, rfl⟩ := List.mem_map.mp hv
    rw [hsize, hid]
    exact h.size w hw
  highWater := by
    intro v hv
    obtain ⟨w, hw, rfl⟩ := List.mem_map.mp hv
    unfold VaultRow.HighWater
    rw [hversion, hid]
    exact h.highWater w hw
  shaped := h.shaped
  content := h.content

/-- A new vault is empty. -/
theorem withVault (h : RevisionTracking db) (hc : Constraints db) {row : VaultRow}
    (hfresh : db.hasVault row.id = false) (hsize : row.size = 0) (hversion : row.version = 0) :
    RevisionTracking (db.withVault row) := by
  have hnone : ∀ r ∈ db.revisions, r.vaultId ≠ row.id := by
    intro r hr hid
    have hexists := hc.revisionVault r hr
    rw [hid, hfresh] at hexists
    exact Bool.noConfusion hexists
  have hempty : db.revisionsOf row.id = [] := by
    simpa [Database.revisionsOf, List.filter_eq_nil_iff] using hnone
  refine ⟨h.sequenceNonneg, fun v hv => ?_, fun v hv => ?_, h.shaped, h.content⟩
  · rcases List.mem_append.mp hv with hv | hv
    · exact h.size v hv
    · rw [List.mem_singleton.mp hv, hsize]
      exact (liveSize_eq db row.id).trans (by rw [hempty]; rfl) |>.symm
  · rcases List.mem_append.mp hv with hv | hv
    · exact h.highWater v hv
    · rw [List.mem_singleton.mp hv]
      refine ⟨hversion.ge, fun r hr hid => absurd hid (hnone r hr), ?_⟩
      rw [hversion]
      exact h.sequenceNonneg

/-- Deleting vaults leaves the rows of the others. -/
theorem withoutVaults (h : RevisionTracking db) (hc : Constraints db) (p : VaultRow → Bool) :
    RevisionTracking (db.withoutVaults p) := by
  have hrows : ∀ v ∈ db.vaults, p v = false →
      (db.withoutVaults p).revisionsOf v.id = db.revisionsOf v.id := by
    intro v hv hkept
    simp only [Database.revisionsOf, Database.withoutVaults_revisions,
      Database.withoutRevisions_revisions, List.filter_filter]
    refine List.filter_congr fun r _ => ?_
    by_cases hid : r.vaultId = v.id
    · have hstays : (db.vaults.any fun w => p w && w.id = r.vaultId) = false := by
        rw [List.any_eq_false]
        intro w hw hgone
        simp only [Bool.and_eq_true, decide_eq_true_eq] at hgone
        rw [hc.eq_of_vaultId hw hv (hgone.2.trans hid), hkept] at hgone
        exact Bool.noConfusion hgone.1
      simp [hstays]
    · simp [hid]
  refine ⟨h.sequenceNonneg, fun v hv => ?_, fun v hv => ?_, fun r hr => ?_, ?_⟩
  · obtain ⟨hmem, hkept⟩ := List.mem_filter.mp hv
    rw [liveSize_congr (hrows v hmem (by simpa using hkept))]
    exact h.size v hmem
  · obtain ⟨hmem, -⟩ := List.mem_filter.mp hv
    obtain ⟨h₀, hmark, hseq⟩ := h.highWater v hmem
    exact ⟨h₀, fun r hr => hmark r (List.mem_of_mem_filter hr), hseq⟩
  · exact h.shaped r (List.mem_of_mem_filter hr)
  · exact h.contentValid_withoutRevisions hc _

/-- A vault with a new identity has the rows it had under the old one. -/
theorem withRotatedVault (h : RevisionTracking db) (hc : Constraints db) {r : Replacement}
    {v : VaultRow} {now : Int} (hv : db.vault? r.oldId = some v)
    (hfresh : db.hasVault r.newId = false) : RevisionTracking (db.withRotatedVault r v now) := by
  obtain ⟨hmem, hid⟩ := mem_of_vault? hv
  have hnew : ∀ w ∈ db.vaults, w.id ≠ r.newId := hasVault_eq_false_iff.mp hfresh
  have hne : r.newId ≠ r.oldId := fun heq => hnew v hmem (hid.trans heq.symm)
  have hrevisions := withRotatedVault_revisions db r v now hne
  have hnone : ∀ s ∈ db.revisions, s.vaultId ≠ r.newId := by
    intro s hs heq
    obtain ⟨w, hw, hwid⟩ := hasVault_iff.mp (hc.revisionVault s hs)
    exact hnew w hw (hwid.trans heq)
  have hold : ∀ w ∈ db.vaults, w.id ≠ r.oldId →
      (db.withRotatedVault r v now).revisionsOf w.id =
        (db.revisionsOf w.id).map (.moved r.oldId r.newId) := by
    intro w hw hwid
    simp only [Database.revisionsOf, hrevisions, List.filter_map]
    congr 1
    refine List.filter_congr fun s _ => ?_
    simp only [Function.comp_apply, RevisionRow.moved_vaultId]
    split
    · rename_i hs
      simp [hs, hwid.symm, (hnew w hw).symm]
    · rfl
  have hmoved : (db.withRotatedVault r v now).revisionsOf r.newId =
      (db.revisionsOf r.oldId).map (.moved r.oldId r.newId) := by
    simp only [Database.revisionsOf, hrevisions, List.filter_map]
    congr 1
    refine List.filter_congr fun s hs => ?_
    simp only [Function.comp_apply, RevisionRow.moved_vaultId]
    split
    · rename_i hs
      simp [hs]
    · rename_i hs'
      simp [hs', hnone s hs]
  have hsize : ∀ rows : List RevisionRow,
      liveSizeOf (rows.map (.moved r.oldId r.newId)) = liveSizeOf rows := fun rows =>
    liveSizeOf_map (by simp) (by simp) (by simp) (by simp) (by simp)
  refine ⟨h.sequenceNonneg, fun w hw => ?_, fun w hw => ?_, fun s hs => ?_, fun s hs => ?_⟩
  · obtain ⟨hw, hwid⟩ := List.mem_filter.mp hw
    rcases List.mem_append.mp hw with hw | hw
    · rw [liveSize_eq, hold w hw (by simpa using hwid), hsize, ← liveSize_eq]
      exact h.size w hw
    · rw [List.mem_singleton.mp hw, liveSize_eq, hmoved, hsize, ← liveSize_eq, ← hid]
      exact h.size v hmem
  · obtain ⟨hw, hwid⟩ := List.mem_filter.mp hw
    rcases List.mem_append.mp hw with hw | hw
    · obtain ⟨h₀, hmark, hseq⟩ := h.highWater w hw
      refine ⟨h₀, fun s hs hsid => ?_, hseq⟩
      have hrow : s ∈ (db.withRotatedVault r v now).revisionsOf w.id :=
        mem_revisionsOf.mpr ⟨hs, hsid⟩
      rw [hold w hw (by simpa using hwid)] at hrow
      obtain ⟨t, ht, rfl⟩ := List.mem_map.mp hrow
      rw [RevisionRow.moved_uid]
      exact hmark t (mem_revisionsOf.mp ht).1 (mem_revisionsOf.mp ht).2
    · rw [List.mem_singleton.mp hw]
      obtain ⟨h₀, hmark, hseq⟩ := h.highWater v hmem
      refine ⟨h₀, fun s hs hsid => ?_, hseq⟩
      have hrow : s ∈ (db.withRotatedVault r v now).revisionsOf r.newId :=
        mem_revisionsOf.mpr ⟨hs, hsid⟩
      rw [hmoved] at hrow
      obtain ⟨t, ht, rfl⟩ := List.mem_map.mp hrow
      rw [RevisionRow.moved_uid]
      exact hmark t (mem_revisionsOf.mp ht).1 ((mem_revisionsOf.mp ht).2.trans hid.symm)
  · rw [hrevisions] at hs
    obtain ⟨t, ht, rfl⟩ := List.mem_map.mp hs
    simpa [RevisionRow.Shaped] using h.shaped t ht
  · rw [hrevisions] at hs
    obtain ⟨t, ht, rfl⟩ := List.mem_map.mp hs
    have hvalid := h.content t ht
    simp only [RevisionRow.ContentValid, if_true, RevisionRow.moved_uid, RevisionRow.moved_size,
      RevisionRow.moved_content, withRotatedVault_revisionContent db r v now hne] at hvalid ⊢
    exact hvalid

end RevisionTracking

/-! ## Requests -/

/-- The handlers create vaults empty. -/
def Request.createsEmpty : Request → Prop
  | .createVault _ _ vault => vault.size = 0
  | .migrateVault _ _ _ replacement => replacement.size = 0
  | _ => True

/-- One vault more, and at least one less. -/
theorem length_replaced_le {vaults : List VaultRow} {row v : VaultRow} {p : VaultRow → Bool}
    (hv : v ∈ vaults) (hp : p v = true) :
    ((vaults ++ [row]).filter fun w => !p w).length ≤ vaults.length := by
  have hlt : ((vaults ++ [row]).filter fun w => !p w).length < (vaults ++ [row]).length :=
    List.length_filter_lt_length_iff_exists.mpr ⟨v, List.mem_append_left _ hv, by simp [hp]⟩
  rw [List.length_append, List.length_singleton] at hlt
  omega

namespace RevisionStore

variable {db db' : Database}

theorem commitRevision (h : RevisionStore db) (hc : Constraints db) {row : RevisionRow}
    {content : Option Blob} (hvault : db.hasVault row.vaultId = true)
    (huser : db.hasUser row.userId = true) (hshaped : row.Shaped) (hinline : row.content = none)
    (hbytes : (row.size = 0 ∧ content = none) ∨
      (0 < row.size ∧ ∃ bytes, content = some bytes ∧ (bytes.length : Int) = row.size)) :
    RevisionStore (db.commitRevision row content) where
  toRevisionTracking := h.toRevisionTracking.commitRevision hc hvault huser hshaped hinline hbytes
  vaultCount := by
    have hlength : (db.commitRevision row content).vaults.length = db.vaults.length := by
      cases content <;> simp [Database.commitRevision, Database.refreshVault]
    rw [hlength]
    exact h.vaultCount

theorem purgeRows (h : RevisionStore db) (hc : Constraints db) {p : RevisionRow → Bool}
    {id : String} {row : VaultRow} (hp : ∀ r, p r = true → r.vaultId = id)
    (hrow : db.vault? id = some row) :
    RevisionStore ((db.withoutRevisions p).refreshVault id row.version) where
  toRevisionTracking := h.toRevisionTracking.purgeRows hc hp hrow
  vaultCount := by simpa [Database.refreshVault] using h.vaultCount

end RevisionStore

/-- Every committed request keeps the invariant. -/
theorem Effect.revisionStore {db db' : Database} {t : Readings} {request : Request}
    {answer : Answer} (h : RevisionStore db) (hc : Constraints db)
    (hempty : request.createsEmpty) (he : Effect db t request answer db') :
    RevisionStore db' := by
  cases he with
  | createVault hok =>
    obtain ⟨-, hcount, hfresh, rfl⟩ := createVaultInternal_ok hok
    refine ⟨h.toRevisionTracking.withVault hc hfresh hempty rfl, ?_⟩
    rw [Database.withVault_vaults, List.length_append, List.length_singleton]
    push_cast
    omega
  | bindManagedKeyhash hok =>
    obtain ⟨-, rfl⟩ := bindManagedKeyhashForSession_ok hok
    refine ⟨h.toRevisionTracking.mapVaults ?_ ?_ ?_, by simpa using h.vaultCount⟩ <;>
      exact fun v => by split <;> rfl
  | renameVault hok =>
    obtain ⟨-, rfl⟩ := renameVaultForSession_ok hok
    refine ⟨h.toRevisionTracking.mapVaults ?_ ?_ ?_, by simpa using h.vaultCount⟩ <;>
      exact fun v => by split <;> rfl
  | deleteVault hok =>
    obtain ⟨-, ⟨-, -, rfl⟩ | ⟨-, -, v, hv, -, rfl⟩⟩ := deleteVaultInternal_ok hok
    · exact h
    · refine ⟨h.toRevisionTracking.withRetiredIdentity.withoutVaults
        (hc.withRetiredIdentity (hc.vaultOwner v hv)) _, ?_⟩
      exact (Int.ofNat_le.mpr (List.length_filter_le _ _)).trans h.vaultCount
  | migrateVault hok =>
    obtain ⟨⟨_, -, hauth⟩, ⟨-, -, rfl⟩ | ⟨-, howns, hfresh, v, hv, -, rfl⟩⟩ :=
      migrateVaultInternal_ok hok
    · exact h
    · rename_i userId _ _ replacement _ _
      have hadded : RevisionTracking (db.withVault (replacement.toRow userId)) :=
        h.toRevisionTracking.withVault hc hfresh hempty rfl
      refine ⟨hadded.mapMemberships.withRetiredIdentity.withoutVaults
        (hc.withReplacement hfresh hauth.hasUser (hc.vaultOwner v hv)) _, ?_⟩
      obtain ⟨w, hw, hwid, hwowner⟩ := ownsVault_iff.mp howns
      refine (Int.ofNat_le.mpr (length_replaced_le hw ?_)).trans h.vaultCount
      simp [hwid, hwowner]
  | inviteCollaborator hok =>
    obtain ⟨-, -, ⟨-, -, -, -, -, rfl⟩ | ⟨-, -, -, -, -, -, -, -, -, rfl⟩⟩ :=
      inviteCollaboratorForSession_ok hok
    · exact h
    · refine ⟨h.toRevisionTracking.frame rfl rfl rfl ?_, h.vaultCount⟩
      exact find_setSequence_of_ne _ _ (by decide)
  | removeCollaborator hok =>
    obtain ⟨-, ⟨-, rfl⟩ | ⟨-, -, -, -, -, -, -, -, -, -, rfl⟩⟩ :=
      removeCollaboratorForSession_ok hok
    · exact h
    · exact ⟨h.toRevisionTracking.mapMemberships, h.vaultCount⟩
  | addEmptyRevision hok =>
    obtain ⟨hchecked, -, hsize, hpieces, -, rfl⟩ := addEmptyRevisionInternal_ok hok
    obtain ⟨hvault, huser⟩ := hchecked.exists
    refine h.commitRevision hc hvault huser ?_ rfl (.inl ⟨hsize, rfl⟩)
    exact ⟨hsize.ge, by rw [NewRevision.toRow, hpieces, hsize]; rfl, fun _ => hsize⟩
  | addFileRevision hok =>
    obtain ⟨hchecked, -, hfolder, hdeleted, hsize, hpieces, hlength, -, rfl⟩ :=
      addFileRevisionInternal_ok hok
    obtain ⟨hvault, huser⟩ := hchecked.exists
    refine h.commitRevision hc hvault huser ?_ rfl (.inr ⟨hsize, _, rfl, hlength⟩)
    refine ⟨hsize.le, hpieces, ?_⟩
    simp [NewRevision.toRow, hfolder, hdeleted]
  | restore hok =>
    obtain ⟨-, -, rfl⟩ | ⟨target, source, content, hr⟩ := restoreInternal_ok hc hok
    · exact h
    · obtain ⟨hvault, huser⟩ := hr.checked.exists
      obtain ⟨hnonneg, hpieces, hfolder⟩ := h.shaped source hr.source_mem
      rw [hr.result]
      refine h.commitRevision hc (hr.source_vault.symm ▸ hvault) huser ?_ rfl ?_
      · refine ⟨hnonneg, hpieces, ?_⟩
        rintro (hflag | hflag)
        · exact hfolder (.inl hflag)
        · cases hflag
      · rcases hr.copied with ⟨hsize, rfl⟩ | ⟨hsize, bytes, rfl, -, hlength⟩
        · exact .inl ⟨le_antisymm hsize hnonneg, rfl⟩
        · exact .inr ⟨hsize, bytes, rfl, hlength⟩
  | purge hok =>
    obtain ⟨-, -, row, hrow, rfl⟩ := purgeInternal_ok hok
    refine h.purgeRows hc (fun r hr => ?_) hrow
    simp only [Database.superseded, Bool.and_eq_true, decide_eq_true_eq] at hr
    exact hr.1

/-! ## Offline operations -/

namespace RevisionStore

variable {db db' : Database}

/-- Sessions, markers and the byte counter are not part of it. -/
theorem frame (h : RevisionStore db) (hvaults : db'.vaults = db.vaults)
    (hrevisions : db'.revisions = db.revisions)
    (hcontent : db'.revisionContent = db.revisionContent)
    (hsequence : db'.sequence "revisions" = db.sequence "revisions") : RevisionStore db' where
  toRevisionTracking := h.toRevisionTracking.frame hvaults hrevisions hcontent hsequence
  vaultCount := by
    rw [hvaults]
    exact h.vaultCount

theorem purgeDeletedHistory (h : RevisionStore db) (hc : Constraints db) {phc : PhcParser}
    {vault : String} {now : Int} {n : Nat}
    (hok : db.purgeDeletedHistory phc vault now = .ok (n, db')) : RevisionStore db' := by
  obtain ⟨row, hrow, rfl⟩ := purgeDeletedHistory_ok hok
  refine h.purgeRows hc (fun r hr => ?_) hrow
  simp only [Database.deletedHistory, Bool.and_eq_true, decide_eq_true_eq] at hr
  exact hr.1

theorem rotateVault (h : RevisionStore db) (hc : Constraints db) {r : Replacement} {now : Int}
    (hok : Database.rotateVault now db r = .ok db') : RevisionStore db' := by
  obtain ⟨-, v, hv, hfresh, -, rfl⟩ := rotateVault_ok hok
  obtain ⟨hmem, hid⟩ := mem_of_vault? hv
  refine ⟨h.toRevisionTracking.withRotatedVault hc hv hfresh, ?_⟩
  refine (Int.ofNat_le.mpr (length_replaced_le hmem ?_)).trans h.vaultCount
  simpa using hid

theorem rotateRecoveryEpoch (h : RevisionStore db) (hc : Constraints db) {newIds : List String}
    {now : Int} {n : Nat} (hok : db.rotateRecoveryEpoch newIds now = .ok (n, db')) :
    RevisionStore db' := by
  obtain ⟨db₁, db₂, hroom, hrotate, rfl⟩ := rotateRecoveryEpoch_ok hok
  have h₁ : RevisionStore db₁ ∧ Constraints db₁ := by
    refine foldlM_invariant (P := fun db => RevisionStore db ∧ Constraints db)
      (fun db owner _ db' hdb hstep => ?_) ⟨h, hc⟩ hroom
    rw [makeRoom_ok hstep]
    exact ⟨hdb.1.frame rfl rfl rfl rfl, hdb.2.pruneRetiredVaults _ _⟩
  have h₂ : RevisionStore db₂ ∧ Constraints db₂ := by
    refine foldlM_invariant (P := fun db => RevisionStore db ∧ Constraints db)
      (fun db r _ db' hdb hstep => ⟨hdb.1.rotateVault hdb.2 hstep, ?_⟩) h₁ hrotate
    obtain ⟨howner, v, -, hfresh, huser, rfl⟩ := rotateVault_ok hstep
    exact hdb.2.withRotatedVault howner hfresh huser
  exact h₂.1.frame rfl rfl rfl rfl

end RevisionStore

/-! ## Runs -/

/-- What can happen to a database file: online requests, the two offline operations that
touch revisions, and a start of the server. -/
inductive Operation where
  | request (request : Request) (t : Readings)
  | purgeDeletedHistory (vault : String) (now : Int)
  | rotateRecoveryEpoch (newIds : List String) (now : Int)
  | startup
deriving DecidableEq

/-- One operation, which succeeds or fails and then changes nothing. -/
inductive Store.Operate (phc : PhcParser) (s : Store) : Operation → Store → Prop where
  | request {request t s'} :
      request.createsEmpty → s.Step (request, t) s' → Store.Operate phc s (.request request t) s'
  | purgeDeletedHistory {vault now n s'} :
      s.db.offline.purgeDeletedHistory phc vault now = .ok (n, s'.db) →
      Store.Operate phc s (.purgeDeletedHistory vault now) s'
  | purgeFailed {vault now error} :
      s.db.offline.purgeDeletedHistory phc vault now = .error error →
      Store.Operate phc s (.purgeDeletedHistory vault now) s
  | rotateRecoveryEpoch {newIds now n s'} :
      s.db.offline.rotateRecoveryEpoch newIds now = .ok (n, s'.db) →
      Store.Operate phc s (.rotateRecoveryEpoch newIds now) s'
  | rotateFailed {newIds now error} :
      s.db.offline.rotateRecoveryEpoch newIds now = .error error →
      Store.Operate phc s (.rotateRecoveryEpoch newIds now) s
  | startup {s'} :
      s'.db = s.db.initializeRuntimeStorageUsage → Store.Operate phc s .startup s'

theorem Store.Operate.revisionStore {phc : PhcParser} {s s' : Store} {op : Operation}
    (h : RevisionStore s.db) (hop : s.Operate phc op s') : RevisionStore s'.db := by
  have hoffline : RevisionStore s.db.offline := h.frame rfl rfl rfl rfl
  have hconstraints : Constraints s.db.offline := { s.constraints with }
  cases hop with
  | request hempty hstep =>
    cases hstep with
    | commit hok => exact (execute_ok hok).revisionStore h s.constraints hempty
    | rollback _ => exact h
  | purgeDeletedHistory hok => exact hoffline.purgeDeletedHistory hconstraints hok
  | purgeFailed _ => exact h
  | rotateRecoveryEpoch hok => exact hoffline.rotateRecoveryEpoch hconstraints hok
  | rotateFailed _ => exact h
  | startup heq =>
    rw [heq]
    exact h.frame rfl rfl rfl rfl

/-- Every place where bytes of a revision are stored. -/
def Database.blobsOf (db : Database) (r : RevisionRow) : List Blob :=
  r.content.toList ++ (db.revisionContent.filter fun c => c.uid = r.uid).map (·.content)

/-- The verifier's content check means that the bytes of a revision are in one place. -/
theorem blobsOf_of_contentValid {db : Database} {r : RevisionRow} (hc : Constraints db)
    (h : r.ContentValid db true) :
    (r.size = 0 → db.blobsOf r = []) ∧
      (0 < r.size → ∃ bytes, db.blobsOf r = [bytes] ∧ (bytes.length : Int) = r.size) := by
  unfold Database.blobsOf
  rw [filter_key_eq_toList hc.contentUid]
  simp only [RevisionRow.ContentValid, if_true] at h
  obtain ⟨hzero, hpos, hinline, hexternal⟩ := h
  constructor
  · intro h₀
    obtain ⟨hnone, hnoexternal⟩ := hzero h₀
    rw [hnone, hnoexternal]
    rfl
  · intro h₀
    have hone := hpos h₀
    cases hin : r.content with
    | none =>
      cases hex : db.revisionContent.find? fun c => c.uid = r.uid with
      | none => simp [hin, hex] at hone
      | some c => exact ⟨c.content, rfl, hexternal c hex⟩
    | some bytes =>
      cases hex : db.revisionContent.find? fun c => c.uid = r.uid with
      | none => exact ⟨bytes, rfl, hinline bytes hin⟩
      | some c => simp [hin, hex] at hone

/-- In every state that is reachable from a database the server has verified, whatever
operations succeed or fail on the way, the vaults are at most 100, every vault's columns
agree with its revisions, and every revision's pieces, flags and bytes with its size. -/
theorem revisionStore_of_run {phc : PhcParser} {s s' : Store} {now : Int}
    {operations : List Operation} (hinit : Database.verifyConnection phc s.db now = .ok ())
    (hrun : Run (Store.Operate phc) s operations s') :
    s'.db.vaults.length ≤ 100 ∧
      (∀ v ∈ s'.db.vaults, v.size = s'.db.liveSize v.id ∧ s'.db.maxUidOf v.id ≤ v.version ∧
        v.version ≤ (s'.db.sequence "revisions").getD 0) ∧
      ∀ r ∈ s'.db.revisions,
        (r.pieces - 1) * revisionPieceSize < r.size ∧ r.size ≤ r.pieces * revisionPieceSize ∧
          (r.folder = true ∨ r.deleted = true → r.size = 0) ∧
          (r.size = 0 → s'.db.blobsOf r = []) ∧
          (0 < r.size → ∃ bytes, s'.db.blobsOf r = [bytes] ∧ (bytes.length : Int) = r.size) := by
  have hstart : RevisionStore s.db :=
    (LogicalInvariants.of_verifyConnection hinit).revisionStore
  have hend : RevisionStore s'.db :=
    Run.invariant (I := fun s : Store => RevisionStore s.db)
      (fun h hop => hop.revisionStore h) hstart hrun
  refine ⟨?_, fun v hv => ?_, fun r hr => ?_⟩
  · exact Int.ofNat_le.mp hend.vaultCount
  · exact ⟨hend.size v hv, (hend.highWater v hv).maxUidOf_le, (hend.highWater v hv).2.2⟩
  · obtain ⟨-, hpieces, hflags⟩ := hend.shaped r hr
    have hbounds := piecesOf_bounds r.size
    rw [← hpieces] at hbounds
    exact ⟨hbounds.1, hbounds.2, hflags,
      blobsOf_of_contentValid s'.constraints (hend.content r hr)⟩

/-- The metadata of a push of a note. -/
def notePush (deleted : Bool) (size pieces : Int) : NewRevision :=
  { vaultId := "vault", path := "note", relatedpath := none, extension := "md", hash := "h",
    ctime := 0, mtime := 0, folder := false, deleted := deleted, size := size, pieces := pieces,
    device := "d", userId := 1, expectedVersion := none }

def personalStore : Store := ⟨personalServer, constraints_personalServer⟩

/-- A note of three bytes, pushed and then deleted. -/
def deletedNote : Store :=
  (personalStore.next (.addFileRevision (notePush false 3 1) someTokenHash [1, 2, 3] 10 10)
    ⟨500, 500⟩).next (.addEmptyRevision (notePush true 0 0) someTokenHash 10 10) ⟨500, 500⟩

/-- A note of three bytes is pushed, deleted and restored, and the history purged. -/
theorem revisionStore_of_purged_note :
    let push := Request.addFileRevision (notePush false 3 1) someTokenHash [1, 2, 3] 10 10
    let delete := Request.addEmptyRevision (notePush true 0 0) someTokenHash 10 10
    let restore := Request.restore 1 someTokenHash "vault" 2 "d" 10 10
    let purge := Request.purge 1 someTokenHash "vault"
    let s : Store := ⟨personalServer, constraints_personalServer⟩
    let s' := (((s.next push ⟨500, 500⟩).next delete ⟨500, 500⟩).next restore ⟨500, 500⟩).next purge
      ⟨500, 500⟩
    s'.db.revisions.map (·.uid) = [3] ∧ s'.db.vaults.map (fun v => (v.size, v.version)) = [(3, 3)] ∧
      ∀ r ∈ s'.db.revisions, 0 < r.size →
        ∃ bytes, s'.db.blobsOf r = [bytes] ∧ (bytes.length : Int) = r.size := by
  intro push delete restore purge s s'
  have hinit : Database.verifyConnection onePhc s.db 500 = .ok () := by decide +kernel
  have hstep : ∀ (s : Store) (request : Request), request.createsEmpty →
      s.Operate onePhc (.request request ⟨500, 500⟩) (s.next request ⟨500, 500⟩) :=
    fun s request h => .request h (s.step_next request _)
  have hrun : Run (Store.Operate onePhc) s [.request push ⟨500, 500⟩, .request delete ⟨500, 500⟩,
      .request restore ⟨500, 500⟩, .request purge ⟨500, 500⟩] s' :=
    .cons (hstep _ push trivial) (.cons (hstep _ delete trivial)
      (.cons (hstep _ restore trivial) (.cons (hstep _ purge trivial) (.nil _))))
  refine ⟨by decide +kernel, by decide +kernel, fun r hr => ?_⟩
  exact ((revisionStore_of_run hinit hrun).2.2 r hr).2.2.2.2

end Blackglass
