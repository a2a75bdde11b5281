import Blackglass.RevisionStore

/-!
# What a restore does

A restore of a revision makes a new head of its path.  It copies the newest revision of the
path that is not deleted and not newer than the one that was asked for; there may be none,
and then nothing happens.  `Restoration` says all there is to say about the database after a
restore, table by table, and `restore_restores` that every restore is one.
-/

namespace Blackglass

open Rows Outcome

/-- The newest revision of a path that is not deleted, among those up to `uid`. -/
structure NewestLive (db : Database) (vault path : String) (uid : Int) (source : RevisionRow) :
    Prop where
  mem : source ∈ db.revisions
  vaultId : source.vaultId = vault
  path_eq : source.path = path
  live : source.deleted = false
  le : source.uid ≤ uid
  newest : ∀ r ∈ db.revisions, r.vaultId = vault → r.path = path → r.deleted = false →
    r.uid ≤ uid → r.uid ≤ source.uid

/-- `uid` is no revision of the vault, or it is deleted and so is all of its path before it. -/
def NothingToRestore (db : Database) (vault : String) (uid : Int) : Prop :=
  (∀ r ∈ db.revisions, r.uid = uid → r.vaultId ≠ vault) ∨
    ∃ target ∈ db.revisions, target.uid = uid ∧ target.vaultId = vault ∧ target.deleted = true ∧
      ∀ r ∈ db.revisions, r.vaultId = vault → r.path = target.path → r.uid < uid →
        r.deleted = true

/-- The database `db'` after a restore, with the row that was asked for, the row that was
copied and the new one. -/
structure Restoration (db : Database) (userId : Int) (vault : String) (uid : Int)
    (device : String) (ts : Int) (db' : Database) (target source row : RevisionRow) : Prop where
  target_mem : target ∈ db.revisions
  target_uid : target.uid = uid
  target_vault : target.vaultId = vault
  source_newest : NewestLive db vault target.path uid source
  row_eq : row = { source with
    uid := row.uid, path := target.path, relatedpath := none, deleted := false, content := none,
    device := device, userId := userId, ts := ts }
  bytes : db'.blobsOf row = db.blobsOf source
  fresh : ∀ r ∈ db.revisions, r.uid < row.uid
  head : row.uid ∈ db'.headUids vault
  result : ∃ contents : List RevisionContentRow, (∀ c ∈ contents, c.uid = row.uid) ∧
    db' = { db with
      revisions := db.revisions ++ [row]
      revisionContent := db.revisionContent ++ contents
      vaults := db.vaults.map fun v =>
        if v.id = vault then { v with size := db'.liveSize vault, version := row.uid } else v
      sqliteSequence := setSequence db.sqliteSequence "revisions" row.uid
      runtimeStorageUsage := db.runtimeStorageUsage.map (· + source.size) }

section

variable {db : Database} {vault : String} {uid : Int}

/-! ## The row that is copied -/

/-- The rows that a restore of a tombstone chooses from. -/
theorem mem_restoreCandidates {target : RevisionRow} {u : Int} :
    u ∈ (db.revisions.filter fun r => r.vaultId = vault && r.path = target.path &&
        r.uid < target.uid && !r.deleted).map (·.uid) ↔
      ∃ r ∈ db.revisions, (r.vaultId = vault ∧ r.path = target.path ∧ r.uid < target.uid ∧
        r.deleted = false) ∧ r.uid = u := by
  simp only [List.mem_map, List.mem_filter, Bool.and_eq_true, decide_eq_true_eq,
    Bool.not_eq_true', and_assoc]

theorem newestLive_of_restoreSource (hc : Constraints db) {target source : RevisionRow}
    (htarget : target ∈ db.revisions) (hmem : source ∈ db.revisions)
    (hvault : source.vaultId = vault) (hpath : source.path = target.path)
    (hlive : source.deleted = false) (h : db.restoreSource vault target = some source.uid) :
    NewestLive db vault target.path target.uid source := by
  unfold Database.restoreSource at h
  split at h
  · -- the tombstone itself is no candidate, so that "before" and "up to" are the same
    rename_i hdeleted
    obtain ⟨hin, hmax⟩ := List.max?_eq_some_iff.mp h
    obtain ⟨r, -, ⟨-, -, hlt, -⟩, huid⟩ := mem_restoreCandidates.mp hin
    refine ⟨hmem, hvault, hpath, hlive, by omega, fun r hr hrvault hrpath hrlive hrle => ?_⟩
    have hne : r.uid ≠ target.uid := by
      intro heq
      rw [hc.eq_of_revisionUid hr htarget heq, hdeleted] at hrlive
      cases hrlive
    exact hmax _ (mem_restoreCandidates.mpr
      ⟨r, hr, ⟨hrvault, hrpath, by omega, hrlive⟩, rfl⟩)
  · obtain hself : target.uid = source.uid := Option.some.inj h
    exact ⟨hmem, hvault, hpath, hlive, hself.ge, fun r _ _ _ _ hr => hself ▸ hr⟩

theorem restorable_eq_false_iff (hc : Constraints db) :
    db.restorable vault uid = false ↔ NothingToRestore db vault uid := by
  unfold Database.restorable NothingToRestore
  cases htarget : db.revisions.find? fun r => r.uid = uid && r.vaultId = vault with
  | none =>
    refine iff_of_true rfl (.inl fun r hr huid hvault => ?_)
    simpa [huid, hvault] using List.find?_eq_none.mp htarget r hr
  | some target =>
    have hmem := List.mem_of_find?_eq_some htarget
    obtain ⟨rfl, rfl⟩ : target.uid = uid ∧ target.vaultId = vault := by
      simpa using List.find?_some htarget
    have hsource : db.restoreSource target.vaultId target = none ↔ target.deleted = true ∧
        ∀ r ∈ db.revisions, r.vaultId = target.vaultId → r.path = target.path →
          r.uid < target.uid → r.deleted = true := by
      unfold Database.restoreSource
      split
      · rename_i hdeleted
        rw [List.max?_eq_none_iff, List.eq_nil_iff_forall_not_mem]
        simp only [mem_restoreCandidates, hdeleted, true_and]
        constructor
        · intro hnone r hr hvault hpath hlt
          cases hlive : r.deleted with
          | true => rfl
          | false => exact absurd ⟨r, hr, ⟨hvault, hpath, hlt, hlive⟩, rfl⟩ (hnone r.uid)
        · rintro hold u ⟨r, hr, ⟨hvault, hpath, hlt, hlive⟩, -⟩
          rw [hold r hr hvault hpath hlt] at hlive
          cases hlive
      · rename_i hlive
        exact iff_of_false (Option.some_ne_none _) fun h => hlive h.1
    rw [Option.any_some, ← Bool.not_eq_true, Option.isSome_iff_ne_none, not_not, hsource]
    constructor
    · exact fun h => .inr ⟨target, hmem, rfl, rfl, h⟩
    · rintro (hnone | ⟨other, hother, huid, -, hdeleted, hold⟩)
      · exact absurd rfl (hnone target hmem rfl)
      · obtain rfl := hc.eq_of_revisionUid hother hmem huid
        exact ⟨hdeleted, hold⟩

/-! ## Its bytes -/

/-- The bytes that a restore reads are the last of those that are stored for the row. -/
theorem storedContent_eq (hc : Constraints db) (r : RevisionRow) :
    db.storedContent r = (db.blobsOf r).getLast? := by
  unfold Database.storedContent Database.blobsOf
  rw [filter_key_eq_toList hc.contentUid]
  cases db.revisionContent.find? fun c => c.uid = r.uid with
  | none => cases r.content <;> rfl
  | some c => simp

/-- A new row has just the bytes that were stored with it. -/
theorem blobsOf_commitRevision (hc : Constraints db) {row : RevisionRow} {content : Option Blob}
    (hrow : row.content = none) :
    (db.commitRevision row content).blobsOf { row with uid := db.nextRevisionUid } =
      content.toList := by
  have hold : db.revisionContent.filter (fun c => c.uid = db.nextRevisionUid) = [] := by
    refine List.filter_eq_nil_iff.mpr fun c hmem huid => ?_
    obtain ⟨r, hr, hruid⟩ := hc.contentRevision c hmem
    have hlt : r.uid < db.nextRevisionUid := lt_nextRowid (List.mem_map_of_mem hr)
    exact hlt.ne (hruid.trans (of_decide_eq_true huid))
  simp only [Database.blobsOf, hrow, commitRevision_revisionContent, List.filter_append, hold]
  cases content <;> simp

theorem bytes_of_copied (hc : Constraints db) {source : RevisionRow} {content : Option Blob}
    (hvalid : source.ContentValid db true) (hsize : 0 ≤ source.size)
    (hcopied : (source.size ≤ 0 ∧ content = none) ∨ (0 < source.size ∧ ∃ bytes,
      content = some bytes ∧ db.storedContent source = some bytes ∧
        (bytes.length : Int) = source.size)) : content.toList = db.blobsOf source := by
  obtain ⟨hempty, hone⟩ := blobsOf_of_contentValid hc hvalid
  rcases hcopied with ⟨hzero, rfl⟩ | ⟨hpos, bytes, rfl, hstored, -⟩
  · rw [hempty (by omega)]
    rfl
  · obtain ⟨bytes', hblobs, -⟩ := hone hpos
    rw [storedContent_eq hc, hblobs] at hstored
    rw [hblobs]
    exact (congrArg (fun b => [b]) (Option.some.inj hstored)).symm

end

/-! ## Restores -/

/-- A commit, table by table. -/
theorem commitRevision_eq (db : Database) (row : RevisionRow) (content : Option Blob) :
    db.commitRevision row content = { db with
      revisions := db.revisions ++ [{ row with uid := db.nextRevisionUid }]
      revisionContent := db.revisionContent ++
        content.toList.map fun bytes => ⟨db.nextRevisionUid, bytes⟩
      vaults := db.vaults.map fun v =>
        if v.id = row.vaultId then
          { v with
            size := (db.commitRevision row content).vaultSize row.vaultId
            version := db.nextRevisionUid }
        else v
      sqliteSequence := setSequence db.sqliteSequence "revisions" db.nextRevisionUid
      runtimeStorageUsage := db.runtimeStorageUsage.map (· + row.size) } := by
  cases content with
  | none =>
    rw [Option.toList_none, List.map_nil, List.append_nil]
    rfl
  | some bytes => rfl

section

variable {db db' : Database} {tokenHash : Option String} {userId uid globalLimit ownerLimit : Int}
  {vault device : String} {t : Readings} {r : Revision}

theorem Restored.restoration {target source : RevisionRow} {content : Option Blob}
    (h : Restored db tokenHash userId vault uid device globalLimit ownerLimit t (some r) db' target
      source content) (hc : Constraints db) (hstore : RevisionStore db) :
    ∃ row, r = row.toRevision ∧
      Restoration db userId vault uid device t.now db' target source row := by
  obtain rfl := h.target_uid
  obtain rfl := h.source_vault
  have hnewest := newestLive_of_restoreSource hc h.target_mem h.source_mem rfl h.source_path
    h.source_live h.source_chosen
  have hfresh : ∀ r ∈ db.revisions, r.uid < db.nextRevisionUid :=
    fun r hr => lt_nextRowid (List.mem_map_of_mem hr)
  obtain ⟨hvault, huser⟩ := h.checked.exists
  have hconstraints : Constraints db' := by
    rw [h.result]
    exact hc.commitRevision hvault huser
  refine ⟨{ source.restored target.path device userId t.now with uid := db.nextRevisionUid },
    Option.some.inj h.answer, {
      target_mem := h.target_mem
      target_uid := rfl
      target_vault := h.target_vault
      source_newest := hnewest
      row_eq := rfl
      bytes := ?_
      fresh := hfresh
      head := ?_
      result := ?_ }⟩
  · rw [h.result, blobsOf_commitRevision hc rfl]
    exact bytes_of_copied hc (hstore.content source h.source_mem)
      (hstore.shaped source h.source_mem).1 h.copied
  · rw [h.result, mem_headUids, commitRevision_revisions]
    refine ⟨_, List.mem_append_right _ List.mem_cons_self, rfl, rfl,
      fun other hother _ _ => ?_⟩
    rcases List.mem_append.mp hother with hother | hother
    · exact (hfresh other hother).le
    · rw [List.mem_singleton.mp hother]
  · have hsize := vaultSize_eq_liveSize hconstraints source.vaultId
    have hcommit := commitRevision_eq db (source.restored target.path device userId t.now) content
    refine ⟨content.toList.map fun bytes => ⟨db.nextRevisionUid, bytes⟩, fun c hc => ?_, ?_⟩
    · obtain ⟨bytes, -, rfl⟩ := List.mem_map.mp hc
      rfl
    · rw [← hsize, h.result]
      exact hcommit

theorem restoreInternal_eq_none_iff (hc : Constraints db)
    (hauthorized : db.authorizeMutation tokenHash userId vault t.authorizedAt = .ok ()) :
    (∃ db', db.restoreInternal userId tokenHash vault uid device globalLimit ownerLimit t =
      .ok (none, db')) ↔ NothingToRestore db vault uid := by
  rw [← restorable_eq_false_iff hc]
  constructor
  · rintro ⟨db', hok⟩
    obtain ⟨-, hnone, -⟩ | ⟨target, source, content, hr⟩ := restoreInternal_ok hc hok
    · exact hnone
    · exact absurd hr.answer (Option.some_ne_none _).symm
  · intro hnone
    unfold Database.restorable at hnone
    refine ⟨db, ?_⟩
    unfold Database.restoreInternal
    rw [hauthorized]
    cases htarget : db.revisions.find? fun r => r.uid = uid && r.vaultId = vault with
    | none => rfl
    | some target =>
      rw [htarget, Option.any_some, Option.isSome_eq_false_iff, Option.isNone_iff_eq_none]
        at hnone
      simp only [hnone]
      rfl

end

/-- A restore on a verified database answers that there is nothing exactly where that is so,
and changes nothing then; one that succeeds is a restoration; and one that fails leaves the
database and the counter of its bytes as they were. -/
theorem restore_restores {phc : PhcParser} {s : Store} {now userId uid globalLimit ownerLimit : Int}
    {tokenHash vault device : String} {t : Readings}
    (hverified : Database.verifyConnection phc s.db now = .ok ()) :
    let request := Request.restore userId tokenHash vault uid device globalLimit ownerLimit
    let result := s.db.restoreInternal userId (some tokenHash) vault uid device globalLimit
      ownerLimit t
    (s.db.authorizeMutation (some tokenHash) userId vault t.authorizedAt = .ok () →
      ((∃ db', result = .ok (none, db')) ↔ NothingToRestore s.db vault uid)) ∧
      (∀ db', result = .ok (none, db') → db' = s.db) ∧
      (∀ r db', result = .ok (some r, db') → ∃ target source row, r = row.toRevision ∧
        Restoration s.db userId vault uid device t.now db' target source row) ∧
      ∀ error, result = .error error → s.next request t = s := by
  intro request result
  have hstore := (LogicalInvariants.of_verifyConnection hverified).revisionStore
  refine ⟨restoreInternal_eq_none_iff s.constraints, fun db' hok => ?_, fun r db' hok => ?_,
    fun error herror => ?_⟩
  · obtain ⟨-, -, hsame⟩ | ⟨target, source, content, hr⟩ := restoreInternal_ok s.constraints hok
    · exact hsame
    · exact absurd hr.answer (Option.some_ne_none _).symm
  · obtain ⟨hnone, -, -⟩ | ⟨target, source, content, hr⟩ := restoreInternal_ok s.constraints hok
    · exact absurd hnone (Option.some_ne_none _)
    · obtain ⟨row, hrow, hrestoration⟩ := hr.restoration s.constraints hstore
      exact ⟨target, source, row, hrow, hrestoration⟩
  · have hexecute : request.execute s.db t = .error error := by
      show (result >>= _) = _
      rw [herror]
      rfl
    exact Store.next_of_error hexecute

/-- The tombstone of the note is restored: the new head is a copy of the first revision. -/
theorem restore_restores_note :
    ∃ r db', deletedNote.db.restoreInternal 1 (some someTokenHash) "vault" 2 "d" 10 10 ⟨501, 501⟩ =
        .ok (some r, db') ∧
      ∃ target source row, r = row.toRevision ∧
        Restoration deletedNote.db 1 "vault" 2 "d" 501 db' target source row := by
  have hverified : Database.verifyConnection onePhc deletedNote.db 500 = .ok () := by decide +kernel
  have hfound : (deletedNote.db.restoreInternal 1 (some someTokenHash) "vault" 2 "d" 10 10
      ⟨501, 501⟩).toOption.any (·.1.isSome) = true := by decide +kernel
  cases hok : deletedNote.db.restoreInternal 1 (some someTokenHash) "vault" 2 "d" 10 10
      ⟨501, 501⟩ with
  | error e =>
    rw [hok] at hfound
    cases hfound
  | ok x =>
    obtain ⟨answer, db'⟩ := x
    cases answer with
    | none =>
      rw [hok] at hfound
      cases hfound
    | some r => exact ⟨r, db', rfl, (restore_restores hverified).2.2.1 r db' hok⟩

end Blackglass
