import Blackglass.Notice
import Blackglass.Session

/-!
# Revisions: commits, restores and purges

The data operations of `db.rs`.  Three of them add a revision (`add_empty_revision`,
`add_file_revision`, `restore`), each with its own checks and statements; what they do
to the database when they succeed is the same change, `commitRevision`.  A purge deletes
every revision of the vault that is not the newest of its path.
-/

namespace Blackglass

open Rows Outcome

/-- `(size + REVISION_PIECE_SIZE - 1) / REVISION_PIECE_SIZE`. -/
def piecesOf (size : Int) : Int := (size + revisionPieceSize - 1) / revisionPieceSize

/-- The row a push inserts, before it has a `uid`. -/
def NewRevision.toRow (r : NewRevision) (content : Option Blob) (ts : Int) : RevisionRow :=
  { uid := 0, vaultId := r.vaultId, path := r.path, relatedpath := r.relatedpath,
    extension := r.extension, hash := r.hash, ctime := r.ctime, mtime := r.mtime,
    folder := r.folder, deleted := r.deleted, size := r.size, pieces := r.pieces,
    content := content, device := r.device, userId := r.userId, ts := ts }

/-- The row a restore inserts: `SELECT vault_id,?,NULL,extension,hash,ctime,mtime,folder,0,
size,pieces,NULL,?,?,?`. -/
def RevisionRow.restored (source : RevisionRow) (path device : String) (userId ts : Int) :
    RevisionRow :=
  { source with
    path := path, relatedpath := none, deleted := false, content := none, device := device,
    userId := userId, ts := ts }

namespace Database

/-! ## Checks -/

def enforceStorageQuotas (db : Database) (vaultId : String)
    (additional globalLimit ownerLimit : Int) : Except DbError Unit := do
  rejectIf (additional < 0 ∨ globalLimit < 0 ∨ ownerLimit < 0)
    (.bail "invalid stored ciphertext quota accounting input")
  let vault ← orReject (db.vault? vaultId) (.bail "vault is unavailable")
  -- zero-byte tombstones and folders stay available while over quota
  if additional = 0 then return ()
  else
    rejectIf (globalLimit = 0 ∨ ownerLimit = 0) .storageQuotaExceeded
    let globalUsed ← db.storedCiphertextSize
    let ownerUsed := db.ownerStoredCiphertextSize vault.ownerUserId
    rejectIf (globalUsed > globalLimit ∨ additional > globalLimit - globalUsed ∨
        ownerUsed > ownerLimit ∨ additional > ownerLimit - ownerUsed)
      .storageQuotaExceeded

def checkExpectedVersion (db : Database) (revision : NewRevision) : Except DbError Unit :=
  match revision.expectedVersion with
  | none => return ()
  | some expected => do
    rejectIf (¬(0 ≤ expected ∧ expected ≤ maxJsSafeInteger))
      (.bail "invalid conditional write boundary")
    let vault ← orReject (db.vault? revision.vaultId) .queryReturnedNoRows
    rejectIf (vault.version ≠ expected) .conditionalWriteConflict

def revision? (db : Database) (uid : Int) : Option RevisionRow :=
  db.revisions.find? fun r => r.uid = uid

/-! ## Commits -/

def addRevision (db : Database) (r : NewRevision) (tokenHash : Option String)
    (content : Option Blob) (storageQuotaBytes ownerStorageQuotaBytes : Int) (t : Readings) :
    Except DbError (Revision × Database) := do
  db.authorizeMutation tokenHash r.userId r.vaultId t.authorizedAt
  db.checkExpectedVersion r
  db.enforceStorageQuotas r.vaultId r.size storageQuotaBytes ownerStorageQuotaBytes
  let (uid, db) ← db.insertRevision (r.toRow content t.now)
  rejectIf (maxJsSafeInteger < uid)
    (.bail "revision UID exceeds the JavaScript safe-integer range")
  let db := db.refreshVault r.vaultId uid
  let stored ← orReject (db.revision? uid) .queryReturnedNoRows
  return (stored.toRevision, db)

def addEmptyRevisionInternal (db : Database) (revision : NewRevision) (tokenHash : Option String)
    (storageQuotaBytes ownerStorageQuotaBytes : Int) (t : Readings) :
    Except DbError (Revision × Database) := do
  rejectIf (revision.size ≠ 0 ∨ revision.pieces ≠ 0)
    (.bail "metadata-only revision must have zero size and pieces")
  db.addRevision revision tokenHash none storageQuotaBytes ownerStorageQuotaBytes t

/-- `io::copy` into a blob handle that has room for `size` bytes. -/
def copyInto (size : Int) (bytes : Blob) (message : String) : Except DbError Unit := do
  rejectIf (size < bytes.length) .io
  rejectIf ((bytes.length : Int) ≠ size) (.bail message)

/-- `file` is what the staged file holds when the commit reads it. -/
def addFileRevisionInternal (db : Database) (revision : NewRevision) (tokenHash : Option String)
    (file : Blob) (storageQuotaBytes ownerStorageQuotaBytes : Int) (t : Readings) :
    Except DbError (Revision × Database) := do
  rejectIf (revision.folder ∨ revision.deleted ∨ revision.size ≤ 0 ∨
      revision.pieces ≠ piecesOf revision.size)
    (.bail "file revision metadata is inconsistent")
  db.authorizeMutation tokenHash revision.userId revision.vaultId t.authorizedAt
  db.checkExpectedVersion revision
  db.enforceStorageQuotas revision.vaultId revision.size storageQuotaBytes ownerStorageQuotaBytes
  let (uid, db) ← db.insertRevision (revision.toRow none t.now)
  rejectIf (maxJsSafeInteger < uid)
    (.bail "revision UID exceeds the JavaScript safe-integer range")
  let db ← db.insertRevisionContent uid file
  copyInto revision.size file "staged upload changed size before commit"
  let db := db.refreshVault revision.vaultId uid
  let stored ← orReject (db.revision? uid) .queryReturnedNoRows
  return (stored.toRevision, db)

/-- The revision a restore copies: the named one, or below a tombstone the newest of its
path that is not deleted. -/
def restoreSource (db : Database) (vault : String) (target : RevisionRow) : Option Int :=
  if target.deleted then
    ((db.revisions.filter fun r => r.vaultId = vault && r.path = target.path &&
      r.uid < target.uid && !r.deleted).map (·.uid)).max?
  else some target.uid

/-- Whether a restore finds its target and something of it to restore. -/
def restorable (db : Database) (vault : String) (uid : Int) : Bool :=
  (db.revisions.find? fun r => r.uid = uid && r.vaultId = vault).any fun target =>
    (db.restoreSource vault target).isSome

/-- The bytes of a revision, where they are stored. -/
def storedContent (db : Database) (source : RevisionRow) : Option Blob :=
  match db.revisionContent.find? fun c => c.uid = source.uid with
  | some c => some c.content
  | none => source.content

/-- The copy of a restore, for a revision that has bytes: the row is made first, then the
source is opened, and what it holds has to fit exactly. -/
def copyContent (db : Database) (source : RevisionRow) (uid : Int) : Except DbError Database :=
  if 0 < source.size then do
    let db' ← db.insertRevisionContent uid ((db.storedContent source).getD [])
    let bytes ← orReject (db.storedContent source) .io
    copyInto source.size bytes "restored content size changed during copy"
    return db'
  else return db

def restoreInternal (db : Database) (userId : Int) (tokenHash : Option String) (vault : String)
    (uid : Int) (device : String) (globalLimit ownerLimit : Int) (t : Readings) :
    Except DbError (Option Revision × Database) := do
  db.authorizeMutation tokenHash userId vault t.authorizedAt
  match db.revisions.find? fun r => r.uid = uid && r.vaultId = vault with
  | none => return (none, db)
  | some target =>
    match db.restoreSource vault target with
    | none => return (none, db)
    | some sourceUid =>
      let source ← orReject (db.revision? sourceUid) .queryReturnedNoRows
      db.enforceStorageQuotas vault source.size globalLimit ownerLimit
      let (newUid, db) ← db.insertRevision (source.restored target.path device userId t.now)
      rejectIf (maxJsSafeInteger < newUid)
        (.bail "revision UID exceeds the JavaScript safe-integer range")
      let db ← db.copyContent source newUid
      let restored ← orReject (db.revision? newUid) .queryReturnedNoRows
      rejectIf (maxEventBytes < restored.toRevision.toNotice.text.utf8ByteSize)
        (.bail "restored revision metadata exceeds the bounded event size")
      return (some restored.toRevision, db.refreshVault vault newUid)

/-! ## Purge -/

/-- `vault_id=? AND uid NOT IN (SELECT MAX(uid) .. GROUP BY path)`. -/
def superseded (db : Database) (vault : String) (r : RevisionRow) : Bool :=
  r.vaultId = vault && r.uid ∉ db.headUids vault

def purgeInternal (db : Database) (userId : Int) (tokenHash : Option String) (vault : String)
    (now : Int) : Except DbError Database := do
  db.authorizeMutation tokenHash userId vault now
  let db ← db.deleteRevisions (db.superseded vault)
  let row ← orReject (db.vault? vault) .queryReturnedNoRows
  return db.refreshVault vault row.version

/-! ## Pages -/

/-- `ORDER BY uid ASC LIMIT ?`, with the limit clamped to `1..=1024`. -/
def pageByUid (rows : List RevisionRow) (limit : Int) : List Revision :=
  ((rows.insertionSort fun a b => a.uid ≤ b.uid).take (min 1024 (max 1 limit)).toNat).map
    (·.toRevision)

def listChangesPage (db : Database) (vault : String) (after through limit : Int) : List Revision :=
  pageByUid (db.revisions.filter fun r => r.vaultId = vault && r.uid > after && r.uid ≤ through)
    limit

/-- `SELECT path,MAX(uid) uid FROM revisions WHERE vault_id=? AND uid<=? GROUP BY path`. -/
def headUidsThrough (db : Database) (vault : String) (through : Int) : List Int :=
  groupMax (·.path) (·.uid)
    (db.revisions.filter fun r => r.vaultId = vault && r.uid ≤ through)

def initialSnapshotPage (db : Database) (vault : String) (after through limit : Int) :
    List Revision :=
  pageByUid (db.revisions.filter fun r =>
    r.uid ∈ db.headUidsThrough vault through && !r.deleted && r.uid > after) limit

/-! ## The change of a commit -/

/-- What the three operations that add a revision do to the database. -/
def commitRevision (db : Database) (row : RevisionRow) (content : Option Blob) : Database :=
  let stored := match content with
    | none => db.withRevision row
    | some bytes => (db.withRevision row).withRevisionContent db.nextRevisionUid bytes
  stored.refreshVault row.vaultId db.nextRevisionUid

end Database

section

variable (db : Database) (row : RevisionRow) (content : Option Blob)

@[simp] theorem commitRevision_revisions : (db.commitRevision row content).revisions =
    db.revisions ++ [{ row with uid := db.nextRevisionUid }] := by
  cases content <;> rfl

@[simp] theorem commitRevision_revisionContent : (db.commitRevision row content).revisionContent =
    db.revisionContent ++ content.toList.map fun bytes => ⟨db.nextRevisionUid, bytes⟩ := by
  cases content with
  | none => simp [Database.commitRevision, Database.refreshVault]
  | some bytes => rfl

@[simp] theorem commitRevision_sequence :
    (db.commitRevision row content).sequence "revisions" = some db.nextRevisionUid := by
  cases content with
  | none => exact find_setSequence_self _ _ _
  | some bytes => exact find_setSequence_self _ _ _

end

/-! ## What the checks saw -/

section

variable {db db' : Database} {u : Unit}

/-- A quota check passed either because nothing is added, or because both totals have
room for what is. -/
theorem enforceStorageQuotas_ok {vaultId : String} {additional globalLimit ownerLimit : Int} :
    db.enforceStorageQuotas vaultId additional globalLimit ownerLimit = .ok u ↔
      0 ≤ additional ∧ 0 ≤ globalLimit ∧ 0 ≤ ownerLimit ∧
        ∃ v, db.vault? vaultId = some v ∧ (additional = 0 ∨
          0 < globalLimit ∧ 0 < ownerLimit ∧ ∃ used, db.runtimeStorageUsage = some used ∧
            used + additional ≤ globalLimit ∧
            db.ownerStoredCiphertextSize v.ownerUserId + additional ≤ ownerLimit) := by
  by_cases h0 : additional = 0
  · simp only [Database.enforceStorageQuotas, bind_eq_ok, rejectIf_eq_ok, orReject_eq_ok,
      exists_unit, h0, if_true, pure_eq_ok, true_or, and_true, not_or, not_lt, lt_irrefl,
      not_false_eq_true, true_and, le_refl]
    tauto
  · simp only [Database.enforceStorageQuotas, Database.storedCiphertextSize, bind_eq_ok,
      rejectIf_eq_ok, orReject_eq_ok, exists_unit, h0, if_false, false_or, not_or, not_lt]
    constructor
    · rintro ⟨⟨ha, hg, ho⟩, v, hv, ⟨hg0, ho0⟩, used, hused, h₁, h₂, h₃, h₄⟩
      exact ⟨ha, hg, ho, v, hv, by omega, by omega, used, hused, by omega, by omega⟩
    · rintro ⟨ha, hg, ho, v, hv, hg0, ho0, used, hused, h₁, h₂⟩
      exact ⟨⟨ha, hg, ho⟩, v, hv, ⟨by omega, by omega⟩, used, hused, by omega, by omega,
        by omega, by omega⟩

theorem checkExpectedVersion_ok {r : NewRevision} (h : db.checkExpectedVersion r = .ok u) :
    ∀ e, r.expectedVersion = some e →
      0 ≤ e ∧ ∃ v, db.vault? r.vaultId = some v ∧ v.version = e := by
  intro e he
  simp only [Database.checkExpectedVersion, he, bind_eq_ok, rejectIf_eq_ok, orReject_eq_ok,
    exists_unit, not_not] at h
  obtain ⟨⟨h₀, -⟩, v, hv, hversion⟩ := h
  exact ⟨h₀, v, hv, hversion⟩

theorem insertRevision_ok {row : RevisionRow} {uid : Int}
    (h : db.insertRevision row = .ok (uid, db')) :
    db.hasVault row.vaultId = true ∧ db.hasUser row.userId = true ∧ uid = db.nextRevisionUid ∧
      db' = db.withRevision row := by
  simp only [Database.insertRevision, bind_eq_ok, rejectIf_eq_ok, exists_unit, pure_eq_ok,
    Prod.mk.injEq, Bool.or_eq_true, Bool.not_eq_true', not_or, Bool.not_eq_false] at h
  obtain ⟨⟨⟨hvault, huser⟩, -⟩, rfl, rfl⟩ := h
  exact ⟨hvault, huser, rfl, rfl⟩

theorem insertRevisionContent_ok {uid : Int} {content : Blob}
    (h : db.insertRevisionContent uid content = .ok db') :
    (∀ c ∈ db.revisionContent, c.uid ≠ uid) ∧ db' = db.withRevisionContent uid content := by
  simp only [Database.insertRevisionContent, bind_eq_ok, rejectIf_eq_ok, exists_unit, pure_eq_ok,
    Bool.or_eq_true, not_or, List.any_eq_true, decide_eq_true_eq, not_exists, not_and] at h
  exact ⟨h.1.1, h.2.symm⟩

theorem deleteRevisions_ok {p : RevisionRow → Bool} (h : db.deleteRevisions p = .ok db') :
    db' = db.withoutRevisions p := by
  simp only [Database.deleteRevisions, bind_eq_ok, rejectIf_eq_ok, exists_unit, pure_eq_ok] at h
  exact h.2.symm

theorem copyInto_ok {size : Int} {bytes : Blob} {message : String}
    (h : Database.copyInto size bytes message = .ok u) : (bytes.length : Int) = size := by
  simp only [Database.copyInto, bind_eq_ok, rejectIf_eq_ok, exists_unit, not_not] at h
  exact h.2

theorem copyContent_ok {source : RevisionRow} {uid : Int}
    (h : db.copyContent source uid = .ok db') :
    (source.size ≤ 0 ∧ db' = db) ∨ (0 < source.size ∧ ∃ bytes,
      db.storedContent source = some bytes ∧ (bytes.length : Int) = source.size ∧
      (∀ c ∈ db.revisionContent, c.uid ≠ uid) ∧
      db' = db.withRevisionContent uid bytes) := by
  unfold Database.copyContent at h
  split at h
  · rename_i hpos
    simp only [bind_eq_ok, orReject_eq_ok, exists_unit, pure_eq_ok] at h
    obtain ⟨db₁, hinsert, bytes, hbytes, hcopy, rfl⟩ := h
    obtain ⟨hfresh, rfl⟩ := insertRevisionContent_ok hinsert
    rw [hbytes, Option.getD_some]
    exact .inr ⟨hpos, bytes, rfl, copyInto_ok hcopy, hfresh, rfl⟩
  · rename_i hpos
    simp only [pure_eq_ok] at h
    exact .inl ⟨not_lt.mp hpos, h.symm⟩

end

/-! ## What the operations did -/

/-- The new row is the one its `uid` finds. -/
theorem revision?_withRevision (db : Database) (row : RevisionRow) :
    (db.withRevision row).revision? db.nextRevisionUid =
      some { row with uid := db.nextRevisionUid } := by
  have hold : db.revisions.find? (fun r => r.uid = db.nextRevisionUid) = none := by
    refine List.find?_eq_none.mpr fun r hr => ?_
    have hlt : r.uid < db.nextRevisionUid := lt_nextRowid (List.mem_map_of_mem hr)
    simpa using hlt.ne
  simp only [Database.revision?, Database.withRevision_revisions, List.find?_append, hold]
  simp

/-- What every operation that adds a revision has checked. -/
structure CommitChecked (db : Database) (tokenHash : Option String) (userId : Int)
    (vaultId : String) (size globalLimit ownerLimit authorizedAt : Int) : Prop where
  authorized : ∃ token, tokenHash = some token ∧ Authorized db token userId authorizedAt
  access : (db.vaultAccess userId vaultId).isSome = true
  quota : db.enforceStorageQuotas vaultId size globalLimit ownerLimit = .ok ()
  uid : db.nextRevisionUid ≤ maxJsSafeInteger

section

variable {db db' : Database} {tokenHash : Option String} {r : NewRevision} {stored : Revision}
  {globalLimit ownerLimit : Int} {t : Readings}

theorem addRevision_ok {content : Option Blob}
    (h : db.addRevision r tokenHash content globalLimit ownerLimit t = .ok (stored, db')) :
    CommitChecked db tokenHash r.userId r.vaultId r.size globalLimit ownerLimit t.authorizedAt ∧
      db.checkExpectedVersion r = .ok () ∧
      stored = { r.toRow content t.now with uid := db.nextRevisionUid }.toRevision ∧
      db' = db.commitRevision (r.toRow content t.now) none := by
  simp only [Database.addRevision, bind_eq_ok, authorizeMutation_ok, rejectIf_eq_ok,
    orReject_eq_ok, exists_unit, pure_eq_ok, Prod.mk.injEq, not_lt] at h
  obtain ⟨⟨hauth, haccess⟩, hcheck, hquota, ⟨uid, db₁⟩, hinsert, huid, row, hrow, rfl, rfl⟩ := h
  obtain ⟨-, -, rfl, rfl⟩ := insertRevision_ok hinsert
  have hfound := revision?_withRevision db (r.toRow content t.now)
  refine ⟨⟨hauth, haccess, hquota, huid⟩, hcheck, ?_, rfl⟩
  rw [← Option.some.inj (hrow.symm.trans hfound)]

theorem addEmptyRevisionInternal_ok
    (h : db.addEmptyRevisionInternal r tokenHash globalLimit ownerLimit t = .ok (stored, db')) :
    CommitChecked db tokenHash r.userId r.vaultId r.size globalLimit ownerLimit t.authorizedAt ∧
      db.checkExpectedVersion r = .ok () ∧ r.size = 0 ∧ r.pieces = 0 ∧
      stored = { r.toRow none t.now with uid := db.nextRevisionUid }.toRevision ∧
      db' = db.commitRevision (r.toRow none t.now) none := by
  simp only [Database.addEmptyRevisionInternal, bind_eq_ok, rejectIf_eq_ok, exists_unit, not_or,
    not_not] at h
  obtain ⟨⟨hsize, hpieces⟩, hadd⟩ := h
  obtain ⟨hchecked, hversion, hstored, hdb⟩ := addRevision_ok hadd
  exact ⟨hchecked, hversion, hsize, hpieces, hstored, hdb⟩

theorem addFileRevisionInternal_ok {file : Blob}
    (h : db.addFileRevisionInternal r tokenHash file globalLimit ownerLimit t =
      .ok (stored, db')) :
    CommitChecked db tokenHash r.userId r.vaultId r.size globalLimit ownerLimit t.authorizedAt ∧
      db.checkExpectedVersion r = .ok () ∧ r.folder = false ∧ r.deleted = false ∧ 0 < r.size ∧
      r.pieces = piecesOf r.size ∧ (file.length : Int) = r.size ∧
      stored = { r.toRow none t.now with uid := db.nextRevisionUid }.toRevision ∧
      db' = db.commitRevision (r.toRow none t.now) (some file) := by
  simp only [Database.addFileRevisionInternal, bind_eq_ok, authorizeMutation_ok, rejectIf_eq_ok,
    orReject_eq_ok, exists_unit, pure_eq_ok, Prod.mk.injEq, not_lt, not_or, not_le, not_not,
    Bool.not_eq_true] at h
  obtain ⟨⟨hfolder, hdeleted, hsize, hpieces⟩, ⟨hauth, haccess⟩, hcheck, hquota, ⟨uid, db₁⟩,
    hinsert, huid, db₂, hcontent, hcopy, row, hrow, rfl, rfl⟩ := h
  obtain ⟨-, -, rfl, rfl⟩ := insertRevision_ok hinsert
  obtain ⟨-, rfl⟩ := insertRevisionContent_ok hcontent
  have hfound := revision?_withRevision db (r.toRow none t.now)
  refine ⟨⟨hauth, haccess, hquota, huid⟩, hcheck, hfolder, hdeleted, hsize, hpieces,
    copyInto_ok hcopy, ?_, rfl⟩
  rw [← Option.some.inj (hrow.symm.trans hfound)]

/-- The source of a restore is a revision of the vault, of the path of its target, that
is not deleted. -/
theorem restoreSource_eq_some {vault : String} {target : RevisionRow} {sourceUid : Int}
    (htarget : target ∈ db.revisions) (hvault : target.vaultId = vault)
    (h : db.restoreSource vault target = some sourceUid) :
    ∃ source ∈ db.revisions, source.uid = sourceUid ∧ source.vaultId = vault ∧
      source.path = target.path ∧ source.deleted = false := by
  unfold Database.restoreSource at h
  split at h
  · obtain ⟨source, hsource, huid⟩ := List.mem_map.mp (List.max?_mem h)
    obtain ⟨hmem, hrow⟩ := List.mem_filter.mp hsource
    simp only [Bool.and_eq_true, decide_eq_true_eq, Bool.not_eq_true'] at hrow
    exact ⟨source, hmem, huid, hrow.1.1.1, hrow.1.1.2, hrow.2⟩
  · rename_i hlive
    exact ⟨target, htarget, Option.some.inj h, hvault, rfl, by simpa using hlive⟩

/-- What a restore has done that found something to restore: it copied a revision of the
vault that is not deleted, with its bytes, under the path of the revision it was asked for. -/
structure Restored (db : Database) (tokenHash : Option String) (userId : Int) (vault : String)
    (uid : Int) (device : String) (globalLimit ownerLimit : Int) (t : Readings)
    (restored : Option Revision) (db' : Database) (target source : RevisionRow)
    (content : Option Blob) : Prop where
  restorable : db.restorable vault uid = true
  target_mem : target ∈ db.revisions
  target_uid : target.uid = uid
  target_vault : target.vaultId = vault
  source_mem : source ∈ db.revisions
  source_chosen : db.restoreSource vault target = some source.uid
  source_vault : source.vaultId = vault
  source_path : source.path = target.path
  source_live : source.deleted = false
  checked : CommitChecked db tokenHash userId vault source.size globalLimit ownerLimit
    t.authorizedAt
  copied : (source.size ≤ 0 ∧ content = none) ∨ (0 < source.size ∧ ∃ bytes,
    content = some bytes ∧ db.storedContent source = some bytes ∧
      (bytes.length : Int) = source.size)
  answer : restored = some { source.restored target.path device userId t.now with
    uid := db.nextRevisionUid }.toRevision
  notice : ∀ r ∈ restored, r.toNotice.text.utf8ByteSize ≤ maxEventBytes
  result : db' = db.commitRevision (source.restored target.path device userId t.now) content

/-- A restore either found nothing to restore, or copied a revision. -/
theorem restoreInternal_ok {userId uid : Int} {vault device : String} {restored : Option Revision}
    (hc : Constraints db)
    (h : db.restoreInternal userId tokenHash vault uid device globalLimit ownerLimit t =
      .ok (restored, db')) :
    (restored = none ∧ db.restorable vault uid = false ∧ db' = db) ∨ ∃ target source content,
      Restored db tokenHash userId vault uid device globalLimit ownerLimit t restored db' target
        source content := by
  simp only [Database.restoreInternal, bind_eq_ok, authorizeMutation_ok, exists_unit] at h
  obtain ⟨⟨hauth, haccess⟩, h⟩ := h
  cases htarget : db.revisions.find? fun r => r.uid = uid && r.vaultId = vault with
  | none =>
    simp only [htarget, pure_eq_ok, Prod.mk.injEq] at h
    exact .inl ⟨h.1.symm, by simp [Database.restorable, htarget], h.2.symm⟩
  | some target =>
    have htmem := List.mem_of_find?_eq_some htarget
    obtain ⟨htuid, htvault⟩ : target.uid = uid ∧ target.vaultId = vault := by
      simpa using List.find?_some htarget
    cases hsource : db.restoreSource vault target with
    | none =>
      simp only [htarget, hsource, pure_eq_ok, Prod.mk.injEq] at h
      exact .inl ⟨h.1.symm, by simp [Database.restorable, htarget, hsource], h.2.symm⟩
    | some sourceUid =>
      have hrestorable : db.restorable vault uid = true := by
        simp [Database.restorable, htarget, hsource]
      simp only [htarget, hsource, bind_eq_ok, orReject_eq_ok, rejectIf_eq_ok, exists_unit,
        pure_eq_ok, Prod.mk.injEq, not_lt] at h
      obtain ⟨source, hfind, hquota, ⟨newUid, db₁⟩, hinsert, huid, db₂, hcopy, row, hrow,
        hnotice, rfl, rfl⟩ := h
      obtain ⟨-, -, rfl, rfl⟩ := insertRevision_ok hinsert
      -- uids are unique, so the row that was read is the one the query chose
      obtain ⟨chosen, hmem, hchosen, hsvault, hspath, hlive⟩ :=
        restoreSource_eq_some htmem htvault hsource
      have hsame : source = chosen := by
        have hsuid : source.uid = sourceUid := by simpa using List.find?_some hfind
        exact hc.eq_of_revisionUid (List.mem_of_find?_eq_some hfind) hmem
          (hsuid.trans hchosen.symm)
      subst hsame
      have hfound := revision?_withRevision db (source.restored target.path device userId t.now)
      have hvault : (source.restored target.path device userId t.now).vaultId = vault := hsvault
      have hanswer : row = { source.restored target.path device userId t.now with
          uid := db.nextRevisionUid } := by
        obtain ⟨-, rfl⟩ | ⟨-, bytes, -, -, -, rfl⟩ := copyContent_ok hcopy
        · exact Option.some.inj (hrow.symm.trans hfound)
        · exact Option.some.inj (hrow.symm.trans hfound)
      obtain ⟨content, hcontent, hresult⟩ : ∃ content : Option Blob,
          ((source.size ≤ 0 ∧ content = none) ∨ (0 < source.size ∧ ∃ bytes,
            content = some bytes ∧ db.storedContent source = some bytes ∧
              (bytes.length : Int) = source.size)) ∧
            db₂.refreshVault vault db.nextRevisionUid =
              db.commitRevision (source.restored target.path device userId t.now) content := by
        obtain ⟨hsize, rfl⟩ | ⟨hsize, bytes, hbytes, hlength, -, rfl⟩ := copyContent_ok hcopy
        · exact ⟨none, .inl ⟨hsize, rfl⟩, by simp only [Database.commitRevision, hvault]⟩
        · exact ⟨some bytes, .inr ⟨hsize, bytes, rfl, hbytes, hlength⟩,
            by simp only [Database.commitRevision, hvault]⟩
      exact .inr ⟨target, source, content, {
        restorable := hrestorable
        target_mem := htmem
        target_uid := htuid
        target_vault := htvault
        source_mem := hmem
        source_chosen := hsource.trans (congrArg some hchosen.symm)
        source_vault := hsvault
        source_path := hspath
        source_live := hlive
        checked := ⟨hauth, haccess, hquota, huid⟩
        copied := hcontent
        answer := by rw [hanswer]
        notice := fun r hr => by
          rw [← Option.some.inj hr]
          exact hnotice
        result := hresult }⟩

theorem purgeInternal_ok {userId now : Int} {vault : String}
    (h : db.purgeInternal userId tokenHash vault now = .ok db') :
    (∃ token, tokenHash = some token ∧ Authorized db token userId now) ∧
      (db.vaultAccess userId vault).isSome = true ∧ ∃ row, db.vault? vault = some row ∧
        db' = (db.withoutRevisions (db.superseded vault)).refreshVault vault row.version := by
  simp only [Database.purgeInternal, bind_eq_ok, authorizeMutation_ok, orReject_eq_ok,
    exists_unit, pure_eq_ok] at h
  obtain ⟨⟨hauth, haccess⟩, db₁, hdelete, row, hrow, rfl⟩ := h
  rw [deleteRevisions_ok hdelete] at hrow ⊢
  exact ⟨hauth, haccess, row, hrow, rfl⟩

end

/-! ## The schema's constraints -/

namespace Constraints

variable {db db' : Database}

/-- A new revision and its bytes. -/
theorem withStoredContent (h : Constraints db) {row : RevisionRow} {bytes : Blob}
    (hvault : db.hasVault row.vaultId = true) (huser : db.hasUser row.userId = true) :
    Constraints ((db.withRevision row).withRevisionContent db.nextRevisionUid bytes) := by
  refine (h.withRevision hvault huser).withRevisionContent ?_ ?_
  · -- a content row with the new uid would refer to a revision that did not exist
    intro c hc huid
    obtain ⟨r, hr, hruid⟩ := h.contentRevision c hc
    have hlt : r.uid < db.nextRevisionUid := lt_nextRowid (List.mem_map_of_mem hr)
    exact absurd (hruid.trans huid) hlt.ne
  · exact ⟨{ row with uid := db.nextRevisionUid }, List.mem_append_right _ (by simp), rfl⟩

/-- A commit into an existing vault, by an existing user. -/
theorem commitRevision (h : Constraints db) {row : RevisionRow} {content : Option Blob}
    (hvault : db.hasVault row.vaultId = true) (huser : db.hasUser row.userId = true) :
    Constraints (db.commitRevision row content) := by
  cases content with
  | none => exact (h.withRevision hvault huser).refreshVault _ _
  | some bytes => exact (h.withStoredContent hvault huser).refreshVault _ _

end Constraints

/-- What a commit was checked against is an existing vault and an existing user. -/
theorem CommitChecked.exists {db : Database} {tokenHash : Option String} {userId : Int}
    {vaultId : String} {size globalLimit ownerLimit authorizedAt : Int}
    (h : CommitChecked db tokenHash userId vaultId size globalLimit ownerLimit authorizedAt) :
    db.hasVault vaultId = true ∧ db.hasUser userId = true := by
  obtain ⟨token, -, hauth⟩ := h.authorized
  obtain ⟨v, hv, hid, -⟩ := vaultAccess_isSome h.access
  exact ⟨hasVault_iff.mpr ⟨v, hv, hid⟩, hauth.hasUser⟩

namespace Constraints

variable {db db' : Database} {tokenHash : Option String} {globalLimit ownerLimit : Int}
  {t : Readings}

theorem addEmptyRevisionInternal (h : Constraints db) {r : NewRevision} {stored : Revision}
    (hok : db.addEmptyRevisionInternal r tokenHash globalLimit ownerLimit t = .ok (stored, db')) :
    Constraints db' := by
  obtain ⟨hchecked, -, -, -, -, rfl⟩ := addEmptyRevisionInternal_ok hok
  obtain ⟨hvault, huser⟩ := hchecked.exists
  exact h.commitRevision hvault huser

theorem addFileRevisionInternal (h : Constraints db) {r : NewRevision} {file : Blob}
    {stored : Revision}
    (hok : db.addFileRevisionInternal r tokenHash file globalLimit ownerLimit t =
      .ok (stored, db')) : Constraints db' := by
  obtain ⟨hchecked, -, -, -, -, -, -, -, rfl⟩ := addFileRevisionInternal_ok hok
  obtain ⟨hvault, huser⟩ := hchecked.exists
  exact h.commitRevision hvault huser

theorem restoreInternal (h : Constraints db) {userId uid : Int} {vault device : String}
    {restored : Option Revision}
    (hok : db.restoreInternal userId tokenHash vault uid device globalLimit ownerLimit t =
      .ok (restored, db')) : Constraints db' := by
  obtain ⟨-, -, rfl⟩ | ⟨target, source, content, hr⟩ := restoreInternal_ok h hok
  · exact h
  · obtain ⟨hexists, huser⟩ := hr.checked.exists
    rw [hr.result]
    exact h.commitRevision (hr.source_vault.symm ▸ hexists) huser

theorem purgeInternal (h : Constraints db) {userId now : Int} {vault : String}
    (hok : db.purgeInternal userId tokenHash vault now = .ok db') : Constraints db' := by
  obtain ⟨-, -, _, -, rfl⟩ := purgeInternal_ok hok
  exact (h.withoutRevisions _).refreshVault _ _

end Constraints

end Blackglass
