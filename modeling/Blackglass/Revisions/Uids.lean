import Blackglass.Quota.Usage
import Blackglass.Lib.Serial

/-!
# Revision uids

A `uid` names one revision, with one content, for as long as the database is in use:
`AUTOINCREMENT` draws it from a sequence that no request lowers, and a request that keeps a
revision keeps its row and its bytes.  Both are said of one request here (`RevisionsAdvance`);
a run follows since they compose.
-/

namespace Blackglass

open Rows Outcome Transition Serial

namespace Database

/-- The highest `uid` ever given out. -/
def lastRevisionUid (db : Database) : Int := (db.sequence "revisions").getD 0

/-- The revisions with the bytes that are stored for them. -/
def storedRevisions (db : Database) : List (RevisionRow × List Blob) :=
  db.revisions.map fun r => (r, db.blobsOf r)

end Database

/-- What a change of the database does to its revisions: some go, some come with a new `uid`,
and the others stay as they are. -/
def RevisionsAdvance (db db' : Database) : Prop :=
  Advance (fun stored : RevisionRow × List Blob => stored.1.uid) Eq
    db.lastRevisionUid db.storedRevisions db'.lastRevisionUid db'.storedRevisions

section

variable {db db' db'' : Database} {t : Readings} {request : Request} {answer : Answer}

theorem mem_storedRevisions {stored : RevisionRow × List Blob} :
    stored ∈ db.storedRevisions ↔ stored.1 ∈ db.revisions ∧ stored.2 = db.blobsOf stored.1 := by
  obtain ⟨r, blobs⟩ := stored
  simp only [Database.storedRevisions, List.mem_map, Prod.mk.injEq]
  constructor
  · rintro ⟨r', hr', rfl, rfl⟩
    exact ⟨hr', rfl⟩
  · rintro ⟨hr, rfl⟩
    exact ⟨r, hr, rfl, rfl⟩

theorem lastRevisionUid_lt_nextRevisionUid : db.lastRevisionUid < db.nextRevisionUid :=
  getD_lt_nextRowid _ _

/-! ## The bytes of the revisions that stay -/

theorem blobsOf_withoutRevisions (hc : Constraints db) {p : RevisionRow → Bool}
    {r : RevisionRow} (hr : r ∈ db.revisions) (hp : p r = false) :
    (db.withoutRevisions p).blobsOf r = db.blobsOf r := by
  rw [Database.blobsOf, Database.blobsOf, filter_key_eq_toList (hc.withoutRevisions p).contentUid,
    filter_key_eq_toList hc.contentUid,
    RevisionTracking.find_content_withoutRevisions hc hr hp]

theorem blobsOf_commitRevision_of_mem {row r : RevisionRow} {content : Option Blob}
    (hr : r ∈ db.revisions) : (db.commitRevision row content).blobsOf r = db.blobsOf r := by
  have hlt : r.uid < db.nextRevisionUid := lt_nextRowid (List.mem_map_of_mem hr)
  rw [Database.blobsOf, commitRevision_revisionContent, List.filter_append]
  cases content with
  | none => simp [Database.blobsOf]
  | some bytes => simp [Database.blobsOf, hlt.ne']

/-! ## One request -/

namespace RevisionsAdvance

theorem trans (h₁ : RevisionsAdvance db db') (h₂ : RevisionsAdvance db' db'') :
    RevisionsAdvance db db'' :=
  Advance.trans Eq.trans h₁ h₂

/-- No revision is new, and those that stay keep their bytes. -/
theorem of_kept (hlast : db'.lastRevisionUid = db.lastRevisionUid)
    (hkept : ∀ r ∈ db'.revisions, r ∈ db.revisions ∧ db'.blobsOf r = db.blobsOf r) :
    RevisionsAdvance db db' := by
  refine Advance.of_subset (fun _ => rfl) hlast.ge fun stored hstored => ?_
  obtain ⟨hr, hblobs⟩ := mem_storedRevisions.mp hstored
  obtain ⟨hold, hsame⟩ := hkept _ hr
  exact mem_storedRevisions.mpr ⟨hold, hblobs.trans hsame⟩

/-- The tables of the revisions stay. -/
theorem frame (hrevisions : db'.revisions = db.revisions)
    (hcontent : db'.revisionContent = db.revisionContent)
    (hlast : db'.lastRevisionUid = db.lastRevisionUid) : RevisionsAdvance db db' := by
  refine of_kept hlast fun r hr => ⟨hrevisions ▸ hr, ?_⟩
  rw [Database.blobsOf, hcontent]
  rfl

theorem refl (db : Database) : RevisionsAdvance db db := frame rfl rfl rfl

theorem withoutRevisions (hc : Constraints db) (p : RevisionRow → Bool) :
    RevisionsAdvance db (db.withoutRevisions p) := by
  refine of_kept rfl fun r hr => ?_
  obtain ⟨hmem, hp⟩ := List.mem_filter.mp hr
  exact ⟨hmem, blobsOf_withoutRevisions hc hmem (by simpa using hp)⟩

theorem commitRevision (row : RevisionRow) (content : Option Blob) :
    RevisionsAdvance db (db.commitRevision row content) := by
  have hlast : (db.commitRevision row content).lastRevisionUid = db.nextRevisionUid := by
    rw [Database.lastRevisionUid, commitRevision_sequence]
    rfl
  refine ⟨hlast ▸ lastRevisionUid_lt_nextRevisionUid.le, fun stored hstored => ?_⟩
  obtain ⟨hr, hblobs⟩ := mem_storedRevisions.mp hstored
  rw [commitRevision_revisions] at hr
  rcases List.mem_append.mp hr with hr | hr
  · rw [blobsOf_commitRevision_of_mem hr] at hblobs
    exact .inl ⟨stored, mem_storedRevisions.mpr ⟨hr, hblobs⟩, rfl, rfl⟩
  · rw [List.mem_singleton.mp hr, hlast]
    exact .inr ⟨lastRevisionUid_lt_nextRevisionUid, le_rfl⟩

/-- A `uid` that was given out names the revision it named, or none. -/
theorem kept (h : RevisionsAdvance db db') (hc : Constraints db)
    (hbounded : ∀ r ∈ db.revisions, r.uid ≤ db.lastRevisionUid) {r r' : RevisionRow}
    (hr : r ∈ db.revisions) (hr' : r' ∈ db'.revisions) (huid : r'.uid = r.uid) :
    r' = r ∧ db'.blobsOf r' = db.blobsOf r := by
  have hdrawn : r'.uid ≤ db.lastRevisionUid := huid ▸ hbounded r hr
  have hstored : (r', db'.blobsOf r') ∈ db'.storedRevisions := mem_storedRevisions.mpr ⟨hr', rfl⟩
  obtain ⟨⟨old, blobs⟩, hold, -, heq⟩ := h.old hstored hdrawn
  obtain ⟨hmem, hblobs⟩ := mem_storedRevisions.mp hold
  cases heq
  obtain rfl := hc.eq_of_revisionUid hmem hr huid
  exact ⟨rfl, hblobs⟩

end RevisionsAdvance

theorem Effect.revisionsAdvance (h : Effect db t request answer db') (hc : Constraints db) :
    RevisionsAdvance db db' := by
  cases h.written hc with
  | same => exact .refl _
  | created | bound | renamed | removed => exact .frame rfl rfl rfl
  | deleted | migrated | purged =>
    exact (RevisionsAdvance.withoutRevisions hc _).trans (.frame rfl rfl rfl)
  | invited =>
    exact .frame rfl rfl (congrArg (Option.getD · 0) (find_setSequence_of_ne _ _ (by decide)))
  | committed _ _ => exact .commitRevision _ _

end

end Blackglass
