import Blackglass.DataPlane.Reads
import Blackglass.RevisionStore

/-!
# What the two purges do

A purge deletes everything of a vault but the heads of its paths; the offline purge of
deleted history deletes what is below a deleted head.  Both are one deletion from the
revisions that spares all heads (`SparesHeads`), and of such deletions everything else
follows: versions, sizes, snapshots and heads stay, the verifier still accepts the database,
and a deletion after another is the deletion of either's rows.
-/

namespace Blackglass

open Rows Outcome

/-- The newest revision of its path. -/
def IsHead (db : Database) (r : RevisionRow) : Prop :=
  r ∈ db.revisions ∧
    ∀ r' ∈ db.revisions, r'.vaultId = r.vaultId → r'.path = r.path → r'.uid ≤ r.uid

/-- A deletion that takes no head. -/
def SparesHeads (db : Database) (p : RevisionRow → Bool) : Prop := ∀ r, IsHead db r → p r = false

/-- `db'` is `db` without some revisions of a vault and their contents: those that are not to
be kept. -/
structure Trimmed (db : Database) (vault : String) (keeps : RevisionRow → Prop) (db' : Database) :
    Prop where
  revisions : ∀ r, r ∈ db'.revisions ↔ r ∈ db.revisions ∧ (r.vaultId = vault → keeps r)
  contents : ∀ c, c ∈ db'.revisionContent ↔
    c ∈ db.revisionContent ∧ ∃ r ∈ db'.revisions, r.uid = c.uid
  rest : ∃ counter, db' = { db with
    revisions := db'.revisions, revisionContent := db'.revisionContent,
    runtimeStorageUsage := counter }
  heads : ∀ r, IsHead db' r ↔ IsHead db r
  liveSize : ∀ id, db'.liveSize id = db.liveSize id
  snapshot : ∀ v ∈ db.vaults, v.id = vault → ∀ after through limit, v.version ≤ through →
    db'.initialSnapshotPage vault after through limit =
      db.initialSnapshotPage vault after through limit
  deleted : ∀ suppress after limit, db'.listDeletedPage vault suppress after limit = []

section

variable {db : Database} {p q : RevisionRow → Bool} {vault : String}

/-! ## Heads -/

theorem mem_headUids_iff (hc : Constraints db) {r : RevisionRow} (hr : r ∈ db.revisions)
    {id : String} : r.uid ∈ db.headUids id ↔ r.vaultId = id ∧ IsHead db r := by
  rw [mem_headUids]
  constructor
  · rintro ⟨head, hhead, hid, huid, hmax⟩
    obtain rfl := hc.eq_of_revisionUid hhead hr huid
    exact ⟨hid, hr, fun r' hr' hvault => hmax r' hr' (hvault.trans hid)⟩
  · rintro ⟨rfl, -, hmax⟩
    exact ⟨r, hr, rfl, rfl, hmax⟩

theorem exists_isHead (hc : Constraints db) {r : RevisionRow} (hr : r ∈ db.revisions) :
    ∃ head, IsHead db head ∧ head.vaultId = r.vaultId ∧ head.path = r.path ∧ r.uid ≤ head.uid := by
  obtain ⟨head, hmem, hvault, hpath, hle, hhead⟩ := exists_head hr
  exact ⟨head, ((mem_headUids_iff hc hmem).mp hhead).2, hvault, hpath, hle⟩

theorem IsHead.eq (hc : Constraints db) {r r' : RevisionRow} (h : IsHead db r) (h' : IsHead db r')
    (hvault : r.vaultId = r'.vaultId) (hpath : r.path = r'.path) : r = r' :=
  hc.eq_of_revisionUid h.1 h'.1
    (le_antisymm (h'.2 r h.1 hvault hpath) (h.2 r' h'.1 hvault.symm hpath.symm))

theorem mem_withoutRevisions {r : RevisionRow} :
    r ∈ (db.withoutRevisions p).revisions ↔ r ∈ db.revisions ∧ p r = false := by
  simp

/-- The heads stay the heads of their paths. -/
theorem SparesHeads.isHead_iff (h : SparesHeads db p) (hc : Constraints db) (r : RevisionRow) :
    IsHead (db.withoutRevisions p) r ↔ IsHead db r := by
  constructor
  · rintro ⟨hr, hmax⟩
    obtain ⟨hr, -⟩ := mem_withoutRevisions.mp hr
    obtain ⟨head, hhead, hvault, hpath, hle⟩ := exists_isHead hc hr
    have hstays := mem_withoutRevisions.mpr ⟨hhead.1, h head hhead⟩
    have heq := hc.eq_of_revisionUid hhead.1 hr (le_antisymm (hmax head hstays hvault hpath) hle)
    exact heq ▸ hhead
  · intro hhead
    refine ⟨mem_withoutRevisions.mpr ⟨hhead.1, h r hhead⟩, fun r' hr' => ?_⟩
    exact hhead.2 r' (mem_withoutRevisions.mp hr').1

theorem SparesHeads.mem_headUids_iff (h : SparesHeads db p) (hc : Constraints db) {uid : Int}
    {id : String} : uid ∈ (db.withoutRevisions p).headUids id ↔ uid ∈ db.headUids id := by
  have hc' := hc.withoutRevisions p
  constructor
  · intro huid
    obtain ⟨r, hr, -, rfl, -⟩ := mem_headUids.mp huid
    obtain ⟨hvault, hhead⟩ := (Blackglass.mem_headUids_iff hc' hr).mp huid
    have hhead := (h.isHead_iff hc r).mp hhead
    exact (Blackglass.mem_headUids_iff hc hhead.1).mpr ⟨hvault, hhead⟩
  · intro huid
    obtain ⟨r, hr, -, rfl, -⟩ := mem_headUids.mp huid
    obtain ⟨hvault, hhead⟩ := (Blackglass.mem_headUids_iff hc hr).mp huid
    have hhead := (h.isHead_iff hc r).mpr hhead
    exact (Blackglass.mem_headUids_iff hc' hhead.1).mpr ⟨hvault, hhead⟩

/-- A query that only heads answer has the same answer after the deletion. -/
theorem SparesHeads.filter_eq (h : SparesHeads db p) {q q' : RevisionRow → Bool}
    (hsame : ∀ r ∈ db.revisions, q' r = q r)
    (hheads : ∀ r ∈ db.revisions, q r = true → IsHead db r) :
    (db.withoutRevisions p).revisions.filter q' = db.revisions.filter q := by
  rw [Database.withoutRevisions_revisions, List.filter_filter]
  refine List.filter_congr fun r hr => ?_
  rw [hsame r hr]
  cases hq : q r with
  | false => rfl
  | true => rw [h r (hheads r hr hq)]; rfl

/-! ## What is left of a database -/

theorem SparesHeads.liveSize_eq (h : SparesHeads db p) (hc : Constraints db) (id : String) :
    (db.withoutRevisions p).liveSize id = db.liveSize id := by
  unfold Database.liveSize
  rw [h.filter_eq (q := fun r => r.vaultId = id && r.uid ∈ db.headUids id && !r.deleted &&
    !r.folder)]
  · intro r _
    simp only [h.mem_headUids_iff hc]
  · intro r hr hq
    simp only [Bool.and_eq_true, decide_eq_true_eq] at hq
    exact ((Blackglass.mem_headUids_iff hc hr).mp hq.1.1.2).2

/-- Up to a bound above all of a vault's revisions, the heads are the heads. -/
theorem headUidsThrough_eq {through : Int}
    (hthrough : ∀ r ∈ db.revisions, r.vaultId = vault → r.uid ≤ through) :
    db.headUidsThrough vault through = db.headUids vault := by
  unfold Database.headUidsThrough Database.headUids
  congr 1
  refine List.filter_congr fun r hr => ?_
  by_cases hvault : r.vaultId = vault
  · simp [hvault, hthrough r hr hvault]
  · simp [hvault]

theorem SparesHeads.initialSnapshotPage_eq (h : SparesHeads db p) (hc : Constraints db)
    {through : Int} (hthrough : ∀ r ∈ db.revisions, r.vaultId = vault → r.uid ≤ through)
    (after limit : Int) :
    (db.withoutRevisions p).initialSnapshotPage vault after through limit =
      db.initialSnapshotPage vault after through limit := by
  have hthrough' : ∀ r ∈ (db.withoutRevisions p).revisions, r.vaultId = vault → r.uid ≤ through :=
    fun r hr => hthrough r (mem_withoutRevisions.mp hr).1
  unfold Database.initialSnapshotPage
  rw [headUidsThrough_eq hthrough, headUidsThrough_eq hthrough',
    h.filter_eq (q := fun r => r.uid ∈ db.headUids vault && !r.deleted && r.uid > after)]
  · intro r _
    simp only [h.mem_headUids_iff hc]
  · intro r hr hq
    simp only [Bool.and_eq_true, decide_eq_true_eq] at hq
    exact ((Blackglass.mem_headUids_iff hc hr).mp hq.1.1).2

/-- Where no deleted head has anything below it, nothing is listed as deleted. -/
theorem listDeletedPage_eq_nil (hc : Constraints db)
    (hbare : ∀ head, IsHead db head → head.vaultId = vault → head.deleted = true →
      ∀ r ∈ db.revisions, r.vaultId = vault → r.path = head.path → r = head)
    (suppress : Bool) (after limit : Int) :
    db.listDeletedPage vault suppress after limit = [] := by
  have hnone : (db.revisions.filter fun r =>
      db.listedAsDeleted vault suppress r && r.uid > max after 0) = [] := by
    refine List.filter_eq_nil_iff.mpr fun r hr hlisted => ?_
    simp only [Database.listedAsDeleted, Bool.and_eq_true, decide_eq_true_eq, List.any_eq_true,
      Bool.not_eq_true'] at hlisted
    obtain ⟨⟨⟨⟨huid, hdeleted⟩, prior, hprior, ⟨⟨hpvault, hppath⟩, hlt⟩, -⟩, -⟩, -⟩ := hlisted
    obtain ⟨hvault, hhead⟩ := (mem_headUids_iff hc hr).mp huid
    rw [hbare r hhead hvault hdeleted prior hprior (hpvault.trans hvault) hppath] at hlt
    exact lt_irrefl _ hlt
  rw [Database.listDeletedPage, hnone, Database.pageByUid, List.insertionSort_nil, List.take_nil,
    List.map_nil]

/-- The contents of the revisions that are left. -/
theorem mem_revisionContent_withoutRevisions (hc : Constraints db) {c : RevisionContentRow} :
    c ∈ (db.withoutRevisions p).revisionContent ↔
      c ∈ db.revisionContent ∧ ∃ r ∈ (db.withoutRevisions p).revisions, r.uid = c.uid := by
  rw [Database.withoutRevisions_revisionContent, List.mem_filter, Bool.not_eq_true',
    List.any_eq_false]
  refine and_congr_right fun hmem => ?_
  obtain ⟨r, hr, huid⟩ := hc.contentRevision c hmem
  constructor
  · intro hkept
    refine ⟨r, mem_withoutRevisions.mpr ⟨hr, ?_⟩, huid⟩
    simpa [huid] using hkept r hr
  · rintro ⟨r', hr', huid'⟩ s hs hgone
    simp only [Bool.and_eq_true, decide_eq_true_eq] at hgone
    obtain ⟨hr', hkept⟩ := mem_withoutRevisions.mp hr'
    rw [hc.eq_of_revisionUid hs hr' (hgone.2.trans huid'.symm), hkept] at hgone
    cases hgone.1

/-- A deletion that spares heads trims a vault. -/
theorem SparesHeads.trimmed (h : SparesHeads db p) (hc : Constraints db) (hstore : RevisionStore db)
    {keeps : RevisionRow → Prop}
    (hkeeps : ∀ r ∈ db.revisions, p r = false ↔ (r.vaultId = vault → keeps r))
    (hbare : ∀ head, IsHead db head → head.vaultId = vault → head.deleted = true →
      ∀ r ∈ db.revisions, p r = false → r.vaultId = vault → r.path = head.path → r = head) :
    Trimmed db vault keeps (db.withoutRevisions p) where
  revisions r := by
    rw [mem_withoutRevisions]
    exact and_congr_right fun hr => hkeeps r hr
  contents c := mem_revisionContent_withoutRevisions hc
  rest := ⟨_, rfl⟩
  heads := h.isHead_iff hc
  liveSize := h.liveSize_eq hc
  snapshot v hv hid after through limit hthrough :=
    h.initialSnapshotPage_eq hc (fun r hr hvault =>
      ((hstore.highWater v hv).2.1 r hr (hvault.trans hid.symm)).trans hthrough) after limit
  deleted := by
    refine listDeletedPage_eq_nil (hc.withoutRevisions p) fun head hhead hvault hdeleted r hr => ?_
    obtain ⟨hr, hkept⟩ := mem_withoutRevisions.mp hr
    exact hbare head ((h.isHead_iff hc head).mp hhead) hvault hdeleted r hr hkept

/-! ## One deletion after another -/

theorem withoutRevisions_congr (h : ∀ r ∈ db.revisions, p r = q r) :
    db.withoutRevisions p = db.withoutRevisions q := by
  have hkept : db.revisions.filter (fun r => !p r) = db.revisions.filter fun r => !q r :=
    List.filter_congr fun r hr => by rw [h r hr]
  have hgone : db.revisions.filter p = db.revisions.filter q := List.filter_congr h
  have hany : ∀ uid : Int, (db.revisions.any fun r => p r && r.uid = uid) =
      db.revisions.any fun r => q r && r.uid = uid := by
    intro uid
    rw [Bool.eq_iff_iff, List.any_eq_true, List.any_eq_true]
    exact exists_congr fun r => and_congr_right fun hr => by rw [h r hr]
  unfold Database.withoutRevisions
  simp only [hkept, hgone, hany]

theorem withoutRevisions_none (h : ∀ r ∈ db.revisions, p r = false) :
    db.withoutRevisions p = db := by
  have hkept : (db.revisions.filter fun r => !p r) = db.revisions :=
    List.filter_eq_self.mpr fun r hr => by rw [h r hr]; rfl
  have hgone : db.revisions.filter p = [] :=
    List.filter_eq_nil_iff.mpr fun r hr hp => by rw [h r hr] at hp; cases hp
  have hcontent : (db.revisionContent.filter fun c =>
      !db.revisions.any fun r => p r && r.uid = c.uid) = db.revisionContent := by
    refine List.filter_eq_self.mpr fun c _ => ?_
    rw [Bool.not_eq_true', List.any_eq_false]
    intro r hr hp
    rw [h r hr] at hp
    cases hp
  unfold Database.withoutRevisions
  rw [hkept, hgone, hcontent]
  simp

/-- What the counter says of the rows that are left. -/
theorem initialize_withoutRevisions :
    (db.withoutRevisions p).initializeRuntimeStorageUsage =
      db.initializeRuntimeStorageUsage.withoutRevisions p := by
  have hsum := sumOf_filter_add (·.size) p db.revisions
  have hcounter : some (sumOf (·.size) (db.revisions.filter fun r => !p r)) =
      (some (sumOf (·.size) db.revisions)).map (· - sumOf (·.size) (db.revisions.filter p)) := by
    rw [Option.map_some]
    congr 1
    omega
  unfold Database.initializeRuntimeStorageUsage Database.withoutRevisions
  simp only [hcounter]

/-- The second deletion may take its rows from the whole database. -/
theorem withoutRevisions_withoutRevisions (hsub : ∀ r ∈ db.revisions, p r = true → q r = true) :
    ((db.withoutRevisions p).withoutRevisions q).initializeRuntimeStorageUsage =
      (db.withoutRevisions q).initializeRuntimeStorageUsage := by
  have hrevisions : ((db.revisions.filter fun r => !p r).filter fun r => !q r) =
      db.revisions.filter fun r => !q r := by
    rw [List.filter_filter]
    refine List.filter_congr fun r hr => ?_
    cases hp : p r with
    | false => simp
    | true => simp [hsub r hr hp]
  have hcontent : ((db.revisionContent.filter fun c =>
      !db.revisions.any fun r => p r && r.uid = c.uid).filter fun c =>
        !(db.revisions.filter fun r => !p r).any fun r => q r && r.uid = c.uid) =
      db.revisionContent.filter fun c => !db.revisions.any fun r => q r && r.uid = c.uid := by
    rw [List.filter_filter]
    refine List.filter_congr fun c _ => ?_
    rw [Bool.eq_iff_iff]
    simp only [Bool.and_eq_true, Bool.not_eq_true', List.any_eq_false, List.mem_filter,
      decide_eq_true_eq, not_and, and_imp]
    constructor
    · rintro ⟨hq, hp⟩ r hr hqr
      cases hpr : p r with
      | false => exact hq r hr hpr hqr
      | true => exact hp r hr hpr
    · exact fun hq => ⟨fun r hr _ hqr => hq r hr hqr, fun r hr hpr => hq r hr (hsub r hr hpr)⟩
  unfold Database.initializeRuntimeStorageUsage Database.withoutRevisions
  simp only [hrevisions, hcontent]

/-! ## The verifier -/

theorem SparesHeads.logicalInvariants {phc : PhcParser} {now : Int} (h : SparesHeads db p)
    (hc : Constraints db) (hlogical : LogicalInvariants phc db true true now) :
    LogicalInvariants phc (db.withoutRevisions p) true true now :=
  { hlogical with
    revision := fun r hr => hlogical.revision r (mem_withoutRevisions.mp hr).1
    notice := fun r hr => hlogical.notice r (mem_withoutRevisions.mp hr).1
    content := hlogical.revisionStore.contentValid_withoutRevisions hc p
    version := fun v hv => by
      refine ⟨?_, (hlogical.version v hv).2⟩
      have hnonneg := (hlogical.revisionStore.highWater v hv).1
      refine maxOr0_le hnonneg fun uid huid => ?_
      obtain ⟨r, hr, rfl⟩ := List.mem_map.mp huid
      obtain ⟨hr, hid⟩ := List.mem_filter.mp hr
      exact (hlogical.revisionStore.highWater v hv).2.1 r (mem_withoutRevisions.mp hr).1
        (of_decide_eq_true hid)
    size := fun v hv => by
      rw [h.liveSize_eq hc]
      exact hlogical.size v hv }

/-- The server accepts a database from which history was deleted. -/
theorem SparesHeads.verifyConnection {phc : PhcParser} {now : Int} (h : SparesHeads db p)
    (hc : Constraints db) (hverified : Database.verifyConnection phc db now = .ok ()) :
    Database.verifyConnection phc (db.withoutRevisions p) now = .ok () := by
  rw [verifyConnection_ok, verifyRecordedSchema_ok] at hverified ⊢
  obtain ⟨htable, hne, hprefix, hlast, hversion⟩ := hverified
  refine ⟨htable, hne, hprefix, hlast, {
    supported := hversion.supported
    tables := hversion.tables
    foreignKeys := ?_
    logical := h.logicalInvariants hc hversion.logical
    membership := hversion.membership
    v7 := fun h7 => ⟨(hversion.v7 h7).administrator, (hversion.v7 h7).settings⟩ }⟩
  obtain ⟨hvault, -, husers, hmemberships, hsettings⟩ := hversion.foreignKeys
  refine ⟨fun r hr => hvault r (mem_withoutRevisions.mp hr).1, fun _ c hmem => ?_, fun h5 => ?_,
    hmemberships, hsettings⟩
  · obtain ⟨-, r, hr, huid⟩ := (mem_revisionContent_withoutRevisions hc).mp hmem
    exact List.any_eq_true.mpr ⟨r, hr, decide_eq_true huid⟩
  · obtain ⟨hvaults, hrevisions, hrest⟩ := husers h5
    exact ⟨hvaults, fun r hr => hrevisions r (mem_withoutRevisions.mp hr).1, hrest⟩

/-! ## The rows that the purges take -/

theorem superseded_eq_false_iff (hc : Constraints db) {r : RevisionRow} (hr : r ∈ db.revisions) :
    db.superseded vault r = false ↔ (r.vaultId = vault → IsHead db r) := by
  unfold Database.superseded
  by_cases hvault : r.vaultId = vault
  · simp [hvault, mem_headUids_iff hc hr]
  · simp [hvault]

theorem sparesHeads_superseded (hc : Constraints db) : SparesHeads db (db.superseded vault) :=
  fun _ hhead => (superseded_eq_false_iff hc hhead.1).mpr fun _ => hhead

/-- The rows to purge do not depend on what history was deleted before. -/
theorem SparesHeads.superseded_eq (h : SparesHeads db p) (hc : Constraints db) (r : RevisionRow) :
    (db.withoutRevisions p).superseded vault r = db.superseded vault r := by
  simp only [Database.superseded, h.mem_headUids_iff hc]

/-- What the purge of deleted history keeps of a vault. -/
def KeptAsHistory (db : Database) (vault : String) (r : RevisionRow) : Prop :=
  ∀ head, IsHead db head → head.vaultId = vault → head.path = r.path → head.deleted = true →
    head = r

theorem deletedHistory_eq_false_iff (hc : Constraints db) {r : RevisionRow}
    (hr : r ∈ db.revisions) :
    db.deletedHistory vault r = false ↔ (r.vaultId = vault → KeptAsHistory db vault r) := by
  unfold Database.deletedHistory
  by_cases hvault : r.vaultId = vault
  · simp only [hvault, decide_true, Bool.true_and, List.any_eq_false, forall_const]
    constructor
    · intro hnone head hhead hhvault hpath hdeleted
      by_contra hne
      refine hnone head hhead.1 ?_
      have huid : head.uid ≠ r.uid := fun h => hne (hc.eq_of_revisionUid hhead.1 hr h)
      simp [(mem_headUids_iff hc hhead.1).mpr ⟨hhvault, hhead⟩, hdeleted, hpath, huid]
    · intro hkept head hmem hbelow
      simp only [Bool.and_eq_true, decide_eq_true_eq, ne_eq, decide_not, Bool.not_eq_true',
        decide_eq_false_iff_not] at hbelow
      obtain ⟨⟨⟨huid, hdeleted⟩, hpath⟩, hne⟩ := hbelow
      obtain ⟨hhvault, hhead⟩ := (mem_headUids_iff hc hmem).mp huid
      exact hne (congrArg _ (hkept head hhead hhvault hpath hdeleted))
  · simp [hvault]

theorem sparesHeads_deletedHistory (hc : Constraints db) :
    SparesHeads db (db.deletedHistory vault) := by
  intro r hhead
  refine (deletedHistory_eq_false_iff hc hhead.1).mpr fun hvault head hhead' hvault' hpath _ => ?_
  exact hhead'.eq hc hhead (hvault'.trans hvault.symm) hpath

/-- What is below a deleted head is no head. -/
theorem superseded_of_deletedHistory (hc : Constraints db) {r : RevisionRow}
    (hr : r ∈ db.revisions) (h : db.deletedHistory vault r = true) :
    db.superseded vault r = true := by
  rw [← Bool.not_eq_false, superseded_eq_false_iff hc hr]
  intro hhead
  rw [← Bool.not_eq_false, deletedHistory_eq_false_iff hc hr] at h
  refine h fun hvault head hhead' hvault' hpath _ => ?_
  exact hhead'.eq hc (hhead hvault) (hvault'.trans hvault.symm) hpath

theorem trimmed_superseded (hc : Constraints db) (hstore : RevisionStore db) :
    Trimmed db vault (IsHead db) (db.withoutRevisions (db.superseded vault)) := by
  refine (sparesHeads_superseded hc).trimmed hc hstore
    (fun r hr => superseded_eq_false_iff hc hr)
    fun head hhead hvault _ r hr hkept hrvault hpath => ?_
  have hrhead := (superseded_eq_false_iff hc hr).mp hkept hrvault
  exact hrhead.eq hc hhead (hrvault.trans hvault.symm) hpath

theorem trimmed_deletedHistory (hc : Constraints db) (hstore : RevisionStore db) :
    Trimmed db vault (KeptAsHistory db vault) (db.withoutRevisions (db.deletedHistory vault)) := by
  refine (sparesHeads_deletedHistory hc).trimmed hc hstore
    (fun r hr => deletedHistory_eq_false_iff hc hr)
    fun head hhead hvault hdeleted r hr hkept hrvault hpath => ?_
  exact ((deletedHistory_eq_false_iff hc hr).mp hkept hrvault head hhead hvault hpath.symm
    hdeleted).symm

/-! ## The operations -/

/-- A vault whose columns are right stays as it is. -/
theorem refreshVault_eq_self (hc : Constraints db) {v : VaultRow} (hv : db.vault? vault = some v)
    (hsize : v.size = db.liveSize vault) : db.refreshVault vault v.version = db := by
  obtain ⟨hmem, hid⟩ := mem_of_vault? hv
  have hsame : (db.vaults.map fun w =>
      if w.id = vault then { w with size := db.vaultSize vault, version := v.version } else w) =
      db.vaults := by
    refine (List.map_congr_left fun w hw => ?_).trans (List.map_id _)
    split
    · rename_i hwid
      rw [hc.eq_of_vaultId hw hmem (hwid.trans hid.symm), vaultSize_eq_liveSize hc, ← hsize]
      rfl
    · rfl
  unfold Database.refreshVault Database.mapVaults
  rw [hsame]

/-- A deletion that spares heads needs no new columns. -/
theorem SparesHeads.refreshVault (h : SparesHeads db p) (hc : Constraints db)
    (hstore : RevisionStore db) {v : VaultRow} (hv : db.vault? vault = some v) :
    (db.withoutRevisions p).refreshVault vault v.version = db.withoutRevisions p := by
  obtain ⟨hmem, hid⟩ := mem_of_vault? hv
  refine refreshVault_eq_self (hc.withoutRevisions p) hv ?_
  rw [h.liveSize_eq hc, ← hid]
  exact hstore.size v hmem

variable {phc : PhcParser} {tokenHash : Option String} {userId now time : Int}

/-- A purge on a database that the server has started on. -/
theorem purgeInternal_initialize (hc : Constraints db) (hstore : RevisionStore db)
    (hauthorized : db.authorizeMutation tokenHash userId vault time = .ok ()) :
    db.initializeRuntimeStorageUsage.purgeInternal userId tokenHash vault time =
      .ok (db.withoutRevisions (db.superseded vault)).initializeRuntimeStorageUsage := by
  obtain ⟨v, hmem, hid, -⟩ := vaultAccess_isSome (authorizeMutation_ok.mp hauthorized).2
  have hv : db.vault? vault = some v := hid ▸ hc.vault?_eq hmem
  have hc' : Constraints db.initializeRuntimeStorageUsage := { hc with }
  have hstore' : RevisionStore db.initializeRuntimeStorageUsage := hstore.frame rfl rfl rfl rfl
  have hspares : SparesHeads _ (db.initializeRuntimeStorageUsage.superseded vault) :=
    sparesHeads_superseded hc'
  have hrefresh := hspares.refreshVault hc' hstore' hv
  have hdelete : db.initializeRuntimeStorageUsage.deleteRevisions
      (db.initializeRuntimeStorageUsage.superseded vault) =
      .ok (db.initializeRuntimeStorageUsage.withoutRevisions
        (db.initializeRuntimeStorageUsage.superseded vault)) := by
    have hkept : 0 ≤ sumOf (·.size) (db.revisions.filter fun r => !db.superseded vault r) :=
      sumOf_nonneg fun r hr => (hstore.shaped r (List.mem_of_mem_filter hr)).1
    have hsum := sumOf_filter_add (·.size) (db.superseded vault) db.revisions
    have hroom : db.initializeRuntimeStorageUsage.runtimeStorageRejects
        (-sumOf (·.size) (db.revisions.filter (db.superseded vault))) = false := by
      show decide (sumOf (·.size) db.revisions + _ < 0) = false
      rw [decide_eq_false_iff_not]
      omega
    unfold Database.deleteRevisions
    rw [rejectIf, if_neg (by rw [Bool.not_eq_true]; exact hroom)]
    rfl
  unfold Database.purgeInternal
  rw [show db.initializeRuntimeStorageUsage.authorizeMutation tokenHash userId vault time = .ok ()
    from hauthorized, hdelete, initialize_withoutRevisions]
  show (orReject (db.vault? vault) DbError.queryReturnedNoRows >>= fun row => _) = _
  rw [hv]
  exact congrArg Except.ok hrefresh

/-- The purge of deleted history, on a file that the verifier accepts. -/
theorem purgeDeletedHistory_offline (hc : Constraints db)
    (hverified : Database.verifyConnection phc db now = .ok ()) {v : VaultRow}
    (hv : db.vault? vault = some v) (h₀ : 0 < vault.utf8ByteSize) (h₁ : vault.utf8ByteSize ≤ 64) :
    db.offline.purgeDeletedHistory phc vault now =
      .ok ((db.revisions.filter (db.deletedHistory vault)).length,
        (db.withoutRevisions (db.deletedHistory vault)).offline) := by
  have hstore := (LogicalInvariants.of_verifyConnection hverified).revisionStore
  have hc' : Constraints db.offline := { hc with }
  have hstore' : RevisionStore db.offline := hstore.frame rfl rfl rfl rfl
  have hspares : SparesHeads _ (db.offline.deletedHistory vault) := sparesHeads_deletedHistory hc'
  have hrefresh := hspares.refreshVault hc' hstore' hv
  have hexists : db.offline.hasVault vault = true := by
    obtain ⟨hmem, hid⟩ := mem_of_vault? hv
    exact hasVault_iff.mpr ⟨v, hmem, hid⟩
  unfold Database.purgeDeletedHistory
  rw [rejectIf, if_neg (by omega), show Database.verifyConnection phc db.offline now = .ok ()
    from hverified, rejectIf, if_neg (by rw [hexists]; decide)]
  show (orReject (db.vault? vault) DbError.queryReturnedNoRows >>= fun row => _) = _
  rw [hv]
  exact congrArg (fun db' => Except.ok (_, db')) hrefresh

/-- Whatever the purge of deleted history has returned, that is it. -/
theorem eq_of_purgeDeletedHistory (hc : Constraints db) (hstore : RevisionStore db) {n : Nat}
    {db' : Database} (h : db.offline.purgeDeletedHistory phc vault now = .ok (n, db')) :
    db' = (db.withoutRevisions (db.deletedHistory vault)).offline := by
  have hc' : Constraints db.offline := { hc with }
  have hstore' : RevisionStore db.offline := hstore.frame rfl rfl rfl rfl
  have hspares : SparesHeads _ (db.offline.deletedHistory vault) := sparesHeads_deletedHistory hc'
  obtain ⟨row, hrow, rfl⟩ := purgeDeletedHistory_ok h
  exact hspares.refreshVault hc' hstore' hrow

end

/-- For every verified database and every vault that a session may purge: the purge leaves
just the heads of the vault and trims nothing else, the purge of deleted history leaves just
the heads of the deleted paths and the whole history of the others; each purge done twice, and
both in either order, are the purge.  A vault whose id has more than 64 bytes is refused by the
purge of deleted history. -/
theorem purge_laws {phc : PhcParser} {s : Store} {now userId time : Int} {tokenHash vault : String}
    (hverified : Database.verifyConnection phc s.db now = .ok ())
    (hauthorized : s.db.authorizeMutation (some tokenHash) userId vault time = .ok ()) :
    let purge (db : Database) := db.purgeInternal userId (some tokenHash) vault time
    let purgeDeletedHistory (db : Database) := db.offline.purgeDeletedHistory phc vault now
    let accepted := 0 < vault.utf8ByteSize ∧ vault.utf8ByteSize ≤ 64
    ∃ purged cleaned : Database,
      (purge s.db.initializeRuntimeStorageUsage = .ok purged.initializeRuntimeStorageUsage ∧
        Trimmed s.db vault (IsHead s.db) purged ∧
        purge purged.initializeRuntimeStorageUsage = .ok purged.initializeRuntimeStorageUsage) ∧
      ((accepted → ∃ n, purgeDeletedHistory s.db = .ok (n, cleaned.offline)) ∧
        (∀ n db', purgeDeletedHistory s.db = .ok (n, db') → db' = cleaned.offline) ∧
        Trimmed s.db vault (KeptAsHistory s.db vault) cleaned ∧
        ∀ head, IsHead s.db head → head.vaultId = vault → head.deleted = false →
          ∀ r ∈ s.db.revisions, r.vaultId = vault → r.path = head.path → r ∈ cleaned.revisions) ∧
      purge cleaned.initializeRuntimeStorageUsage = .ok purged.initializeRuntimeStorageUsage ∧
      (accepted → purgeDeletedHistory purged = .ok (0, purged.offline)) ∧
      ∀ n db', purgeDeletedHistory purged = .ok (n, db') → db' = purged.offline := by
  intro purge purgeDeletedHistory accepted
  have hc := s.constraints
  have hstore := (LogicalInvariants.of_verifyConnection hverified).revisionStore
  obtain ⟨v, hmem, hid, -⟩ := vaultAccess_isSome (authorizeMutation_ok.mp hauthorized).2
  have hv : s.db.vault? vault = some v := hid ▸ hc.vault?_eq hmem
  have hspares : SparesHeads s.db (s.db.superseded vault) := sparesHeads_superseded hc
  have hspares' : SparesHeads s.db (s.db.deletedHistory vault) := sparesHeads_deletedHistory hc
  have hpurged := hspares.verifyConnection hc hverified
  have hcleaned := hspares'.verifyConnection hc hverified
  have htrimmed : Trimmed s.db vault (KeptAsHistory s.db vault) _ :=
    trimmed_deletedHistory hc hstore
  -- of a purged vault there is nothing left to delete
  have hnone : ∀ r ∈ (s.db.withoutRevisions (s.db.superseded vault)).revisions,
      (s.db.withoutRevisions (s.db.superseded vault)).superseded vault r = false := by
    intro r hr
    rw [hspares.superseded_eq hc]
    exact (mem_withoutRevisions.mp hr).2
  have hnone' : ∀ r ∈ (s.db.withoutRevisions (s.db.superseded vault)).revisions,
      (s.db.withoutRevisions (s.db.superseded vault)).deletedHistory vault r = false := by
    intro r hr
    by_contra hbelow
    have hgone := superseded_of_deletedHistory (hc.withoutRevisions _) hr (by simpa using hbelow)
    rw [hnone r hr] at hgone
    cases hgone
  have hagain : ∀ (db : Database), Constraints db → Database.verifyConnection phc db now = .ok () →
      db.authorizeMutation (some tokenHash) userId vault time = .ok () →
      purge db.initializeRuntimeStorageUsage =
        .ok (db.withoutRevisions (db.superseded vault)).initializeRuntimeStorageUsage :=
    fun db hc hverified hauthorized => purgeInternal_initialize hc
      (LogicalInvariants.of_verifyConnection hverified).revisionStore hauthorized
  refine ⟨s.db.withoutRevisions (s.db.superseded vault),
    s.db.withoutRevisions (s.db.deletedHistory vault),
    ⟨hagain s.db hc hverified hauthorized, trimmed_superseded hc hstore, ?_⟩,
    ⟨fun h => ⟨_, purgeDeletedHistory_offline hc hverified hv h.1 h.2⟩,
      fun n db' h => eq_of_purgeDeletedHistory hc hstore h, htrimmed, ?_⟩, ?_, fun h => ?_,
    fun n db' h => ?_⟩
  · rw [hagain _ (hc.withoutRevisions _) hpurged hauthorized, withoutRevisions_none hnone]
  · intro head hhead hvault hlive r hr hrvault hpath
    refine (htrimmed.revisions r).mpr ⟨hr, fun _ head' hhead' hvault' hpath' hdeleted => ?_⟩
    rw [hhead'.eq hc hhead (hvault'.trans hvault.symm) (hpath'.trans hpath), hlive] at hdeleted
    cases hdeleted
  · rw [hagain _ (hc.withoutRevisions _) hcleaned hauthorized,
      withoutRevisions_congr fun r _ => hspares'.superseded_eq hc r,
      withoutRevisions_withoutRevisions fun r hr => superseded_of_deletedHistory hc hr]
  · have hgone : ((s.db.withoutRevisions (s.db.superseded vault)).revisions.filter
        ((s.db.withoutRevisions (s.db.superseded vault)).deletedHistory vault)) = [] :=
      List.filter_eq_nil_iff.mpr fun r hr => by rw [hnone' r hr]; exact Bool.false_ne_true
    have hok := purgeDeletedHistory_offline (hc.withoutRevisions _) hpurged hv h.1 h.2
    rw [hgone, withoutRevisions_none hnone'] at hok
    exact hok
  · have hsame := eq_of_purgeDeletedHistory (hc.withoutRevisions _)
      (LogicalInvariants.of_verifyConnection hpurged).revisionStore h
    rwa [withoutRevisions_none hnone'] at hsame

/-- The history of a deleted note is purged, with either purge. -/
theorem purge_laws_of_note :
    ∃ purged cleaned : Database, purged.revisions.map (·.uid) = [2] ∧
      Trimmed deletedNote.db "vault" (IsHead deletedNote.db) purged ∧
      (∃ n, deletedNote.db.offline.purgeDeletedHistory onePhc "vault" 500 =
        .ok (n, cleaned.offline)) ∧
      cleaned.initializeRuntimeStorageUsage.purgeInternal 1 (some someTokenHash) "vault" 600 =
        .ok purged.initializeRuntimeStorageUsage := by
  have hverified : Database.verifyConnection onePhc deletedNote.db 500 = .ok () := by decide +kernel
  have hauthorized : deletedNote.db.authorizeMutation (some someTokenHash) 1 "vault" 600 =
      .ok () := by decide +kernel
  have hleft : (deletedNote.db.initializeRuntimeStorageUsage.purgeInternal 1 (some someTokenHash)
      "vault" 600).toOption.map (fun db => db.revisions.map (·.uid)) = some [2] := by
    decide +kernel
  obtain ⟨purged, cleaned, ⟨hpurge, htrimmed, -⟩, ⟨hcleaned, -⟩, hboth, -⟩ :=
    purge_laws hverified hauthorized
  beta_reduce at hpurge
  rw [hpurge] at hleft
  exact ⟨purged, cleaned, Option.some.inj hleft, htrimmed, hcleaned (by decide), hboth⟩

end Blackglass
