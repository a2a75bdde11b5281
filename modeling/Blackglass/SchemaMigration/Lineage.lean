import Blackglass.Accounts
import Blackglass.CompareAndSwap
import Blackglass.Revisions.Uids
import Blackglass.SchemaMigration

/-!
# Revision uids over the life of a database

A lineage is a database on its way through migrations, starts of the server, and the
transactions the server runs.  Clients resume by `uid`, so none may be given out twice, also
not that of a revision which was purged or went with its vault.  While the server runs the
sequence of the revisions sees to that.  Version 5 makes that sequence anew from the revisions
that are still there, so it falls if the highest ones are not: this is the one step that can
lower it, and `Lineage.KeepsSequence` says when it does not.
-/

namespace Blackglass

open Rows Outcome Transition

/-! ## The sequence in a migration -/

section

variable {phc : PhcParser} {db db' source migrated target : Database} {user : InitialUser}
  {initialUser : Option InitialUser} {clock : Int → StepReadings} {newIds : List String}
  {t : MigrationReadings} {version : Int} {n : Nat}

theorem map_uid_upgrade {s : StepReadings} :
    (db.upgrade user version s).revisions.map (·.uid) = db.revisions.map (·.uid) := by
  unfold Database.upgrade
  split_ifs
  case pos =>
    show (db.revisions.map _).map _ = _
    rw [List.map_map]
    rfl
  all_goals rfl

theorem map_uid_upgraded :
    (db.upgraded user clock version n).revisions.map (·.uid) = db.revisions.map (·.uid) := by
  induction n with
  | zero => rfl
  | succ n ih => exact map_uid_upgrade.trans ih

theorem lastRevisionUid_upgrade {s : StepReadings} : (db.upgrade user version s).lastRevisionUid =
    if version = 5 then db.maxRevisionUid else db.lastRevisionUid := by
  unfold Database.upgrade
  split_ifs
  case pos =>
    show ((db.migration5 user s.appliedAt).sequence "revisions").getD 0 = _
    rw [sequence_revisions_migration5]
    rfl
  all_goals rfl

theorem lastRevisionUid_upgraded : (db.upgraded user clock version n).lastRevisionUid =
    if version < 5 ∧ 5 ≤ version + n then db.maxRevisionUid else db.lastRevisionUid := by
  induction n with
  | zero =>
    rw [if_neg (by push_cast; omega)]
    rfl
  | succ n ih =>
    have hmax : (db.upgraded user clock version n).maxRevisionUid = db.maxRevisionUid :=
      congrArg maxOr0 map_uid_upgraded
    rw [Database.upgraded, lastRevisionUid_upgrade, ih, hmax]
    push_cast
    split_ifs <;> first | rfl | omega

/-- A new recovery epoch leaves the sequences and the uids alone. -/
theorem uids_rotateRecoveryEpoch {now : Int}
    (h : db.rotateRecoveryEpoch newIds now = .ok (n, db')) :
    db'.sqliteSequence = db.sqliteSequence ∧
      db'.revisions.map (·.uid) = db.revisions.map (·.uid) := by
  obtain ⟨db₁, db₂, hroom, hrotate, rfl⟩ := rotateRecoveryEpoch_ok h
  have h₁ : db₁.sqliteSequence = db.sqliteSequence ∧
      db₁.revisions.map (·.uid) = db.revisions.map (·.uid) := by
    refine foldlM_invariant (P := fun d => d.sqliteSequence = db.sqliteSequence ∧
      d.revisions.map (·.uid) = db.revisions.map (·.uid)) (fun d owner _ d' hd hstep => ?_)
      ⟨rfl, rfl⟩ hroom
    rw [makeRoom_ok hstep]
    exact hd
  refine foldlM_invariant (P := fun d => d.sqliteSequence = db.sqliteSequence ∧
    d.revisions.map (·.uid) = db.revisions.map (·.uid)) (fun d r _ d' hd hstep => ?_) h₁ hrotate
  obtain ⟨-, v, hold, hfresh, -, rfl⟩ := rotateVault_ok hstep
  have hne : r.newId ≠ r.oldId := by
    intro heq
    obtain ⟨hv, hid⟩ := mem_of_vault? hold
    exact hasVault_eq_false_iff.mp hfresh v hv (hid.trans heq.symm)
  refine ⟨hd.1, ?_⟩
  rw [withRotatedVault_revisions d r v now hne, List.map_map]
  simpa only [Function.comp_def, RevisionRow.moved_uid] using hd.2

/-- The sequence after the command, and the highest `uid` in use. -/
theorem Migrated.uids (h : Migrated phc source initialUser newIds t version user migrated target) :
    target.maxRevisionUid = source.maxRevisionUid ∧ target.lastRevisionUid =
      if version < 5 then source.maxRevisionUid else source.lastRevisionUid := by
  have h₁ := h.version_pos
  have h₇ := h.version_lt
  have hmax : migrated.maxRevisionUid = source.maxRevisionUid := by
    rw [h.result]
    exact congrArg maxOr0 map_uid_upgraded
  have hlast : migrated.lastRevisionUid =
      if version < 5 then source.maxRevisionUid else source.lastRevisionUid := by
    rw [h.result, lastRevisionUid_upgraded]
    refine if_congr ?_ rfl rfl
    omega
  by_cases h₃ : version < 3
  · obtain ⟨n, hrotate⟩ := h.rotated h₃
    obtain ⟨hsequence, huids⟩ := uids_rotateRecoveryEpoch hrotate
    refine ⟨(congrArg maxOr0 huids).trans hmax, ?_⟩
    rw [← hlast, Database.lastRevisionUid, Database.sequence, hsequence]
    rfl
  · rw [h.kept (by omega)]
    exact ⟨hmax, hlast⟩

end

/-! ## One transaction -/

section

variable {phc : PhcParser} {db db' : Database} {t : Readings} {request : Request} {answer : Answer}
  {r : Revision} {s s' : Store} {x : Transaction}

/-- A committed revision has the next `uid`. -/
theorem Effect.uid_of_revision (he : Effect db t request answer db') (hc : Constraints db)
    (hr : answer.revision? = some r) :
    r.uid = db.nextRevisionUid ∧ db'.lastRevisionUid = r.uid := by
  by_cases hkeeps : request.keepsVaults = true
  · have hchange := he.change hc hkeeps
    rw [hr] at hchange
    generalize request.purges = purges at hchange
    cases hchange with
    | commit _ _ => exact ⟨rfl, congrArg (Option.getD · 0) (commitRevision_sequence _ _ _)⟩
  · cases he with
    | deleteVault _ | migrateVault _ => cases hr
    | _ => exact absurd rfl hkeeps

theorem Store.Transact.revisionsAdvance (h : s.Transact x s') : RevisionsAdvance s.db s'.db := by
  cases h with
  | commit hok => exact (execute_ok hok).revisionsAdvance s.constraints
  | rollback _ => exact .refl _

theorem Store.Transact.uid_of_revision (h : s.Transact x s') (hr : x.revision? = some r) :
    s.db.lastRevisionUid < r.uid ∧ r.uid ≤ s'.db.lastRevisionUid := by
  cases h with
  | commit hok =>
    obtain ⟨hnext, hlast⟩ := (execute_ok hok).uid_of_revision s.constraints hr
    exact ⟨hnext ▸ lastRevisionUid_lt_nextRevisionUid, hlast.ge⟩
  | rollback _ => cases hr

/-- Operations on accounts draw no `uid`. -/
theorem AccountEffect.lastRevisionUid {op : AccountOperation} {now : Int}
    (h : AccountEffect phc db now op db') : db'.lastRevisionUid = db.lastRevisionUid := by
  cases h with
  | issue hok =>
    rw [issueSessionForUser_frame hok]
    rfl
  | created _ _ _ _ _ _ =>
    exact congrArg (Option.getD · 0) (find_setSequence_of_ne _ _ (by decide))
  | changed _ _ _ =>
    rw [changeUser_frame]
    rfl
  | same | renewContext _ | renewForVault _ | revoke _ _ | toggled _ _ => rfl

end

/-! ## Lineages -/

/-- A database lies in a file, or a server runs on it. -/
inductive Phase where
  | offline (file : DatabaseFile)
  | serving (s : Store)

def Phase.db : Phase → Database
  | .offline file => file.db
  | .serving s => s.db

/-- A database, and every `uid` that a revision of it was ever given. -/
structure Lineage where
  phase : Phase
  assigned : List Int

def Lineage.db (l : Lineage) : Database := l.phase.db

inductive LineageEvent where
  | migrate (initialUser : Option InitialUser) (newIds : List String) (t : MigrationReadings)
  | startup (now : Int)
  | account (op : AccountOperation) (now : Int)
  | transaction (x : Transaction)
  | shutdown

/-- What can happen to a database.  The server starts only on one that passes its checks, and
every revision that a transaction commits has been given its `uid`. -/
inductive Lineage.Step (phc : PhcParser) : Lineage → LineageEvent → Lineage → Prop where
  | migrate {file file' : DatabaseFile} {assigned initialUser newIds t} :
      file.db.migrateVersionedDatabaseUnderLock phc initialUser newIds t = .ok file'.db →
      Lineage.Step phc ⟨.offline file, assigned⟩ (.migrate initialUser newIds t)
        ⟨.offline file', assigned⟩
  | migrateFailed {file : DatabaseFile} {assigned initialUser newIds t error} :
      file.db.migrateVersionedDatabaseUnderLock phc initialUser newIds t = .error error →
      Lineage.Step phc ⟨.offline file, assigned⟩ (.migrate initialUser newIds t)
        ⟨.offline file, assigned⟩
  | startup {file : DatabaseFile} {s : Store} {assigned now} :
      Database.verifyConnection phc file.db now = .ok () →
      s.db = file.db.initializeRuntimeStorageUsage →
      Lineage.Step phc ⟨.offline file, assigned⟩ (.startup now) ⟨.serving s, assigned⟩
  | account {s s' : Store} {assigned op now} : s.Account phc (op, now) s' →
      Lineage.Step phc ⟨.serving s, assigned⟩ (.account op now) ⟨.serving s', assigned⟩
  | transaction {s s' : Store} {assigned x} : s.Transact x s' →
      Lineage.Step phc ⟨.serving s, assigned⟩ (.transaction x)
        ⟨.serving s', assigned ++ x.revision?.toList.map (·.uid)⟩
  | shutdown {s : Store} {file : DatabaseFile} {assigned} : file.db = s.db.offline →
      Lineage.Step phc ⟨.serving s, assigned⟩ .shutdown ⟨.offline file, assigned⟩

/-- A migration across version 5 is made while the highest `uid` ever given out is in use. -/
def Database.KeepsSequence (db : Database) : Prop :=
  db.recordedVersion < 5 → db.lastRevisionUid ≤ db.maxRevisionUid

instance (db : Database) : Decidable db.KeepsSequence := by
  unfold Database.KeepsSequence
  infer_instance

/-- The event is no migration that succeeds and lowers the sequence. -/
def Lineage.KeepsSequence (phc : PhcParser) (l : Lineage) : LineageEvent → Prop
  | .migrate initialUser newIds t => ∀ target,
      l.db.migrateVersionedDatabaseUnderLock phc initialUser newIds t = .ok target →
      l.db.KeepsSequence
  | _ => True

section

variable {phc : PhcParser} {source target : Database} {initialUser : Option InitialUser}
  {newIds : List String} {t : MigrationReadings} {l l' : Lineage} {event : LineageEvent}

/-- A migration does not lower the sequence, and leads to a `uid` never given out before, just
if the highest one was in use or version 5 was reached before. -/
theorem keepsSequence_iff
    (h : source.migrateVersionedDatabaseUnderLock phc initialUser newIds t = .ok target) :
    (source.lastRevisionUid ≤ target.lastRevisionUid ↔ source.KeepsSequence) ∧
      (source.lastRevisionUid < target.nextRevisionUid ↔ source.KeepsSequence) := by
  obtain ⟨version, user, migrated, hm⟩ := migrateVersionedDatabaseUnderLock_ok h
  obtain ⟨hmax, hlast⟩ := hm.uids
  have hnext : target.nextRevisionUid = max target.lastRevisionUid target.maxRevisionUid + 1 := rfl
  rw [Database.KeepsSequence, hm.recordedVersion, hnext, hlast, hmax]
  split_ifs with h₅ <;> constructor <;> omega

theorem Lineage.Step.lastRevisionUid_le (h : l.Step phc event l')
    (hkeeps : l.KeepsSequence phc event) :
    l.db.lastRevisionUid ≤ l'.db.lastRevisionUid := by
  cases h with
  | migrate hok => exact (keepsSequence_iff hok).1.mpr (hkeeps _ hok)
  | migrateFailed _ => exact le_rfl
  | @startup _ s _ _ _ hs =>
    show _ ≤ s.db.lastRevisionUid
    rw [hs]
    exact le_rfl
  | account hstep => exact hstep.effect.lastRevisionUid.ge
  | transaction hstep => exact hstep.revisionsAdvance.counter
  | @shutdown _ file _ hfile =>
    show _ ≤ file.db.lastRevisionUid
    rw [hfile]
    exact le_rfl

/-- No `uid` was given out that the sequence has not reached. -/
def Lineage.Reached (l : Lineage) : Prop := ∀ uid ∈ l.assigned, uid ≤ l.db.lastRevisionUid

instance (l : Lineage) : Decidable l.Reached := by
  unfold Lineage.Reached
  infer_instance

theorem Lineage.Step.reached (h : l.Step phc event l') (hkeeps : l.KeepsSequence phc event)
    (hl : l.Reached) : l'.Reached := by
  have hle := h.lastRevisionUid_le hkeeps
  intro uid huid
  cases h with
  | transaction hstep =>
    rcases List.mem_append.mp huid with hold | hnew
    · exact (hl uid hold).trans hle
    · obtain ⟨r, hr, rfl⟩ := List.mem_map.mp hnew
      exact (hstep.uid_of_revision (Option.mem_toList.mp hr)).2
  | migrate _ | migrateFailed _ | startup _ _ | account _ | shutdown _ =>
    exact (hl uid huid).trans hle

/-- In a lineage whose migrations each keep the sequence, it never falls, and the `uid` of every
revision that is committed is above all that were ever given out.  A migration keeps the sequence
just if it starts from version 5 or later, or while the highest `uid` is in use; otherwise the
next revision gets a `uid` that was given out before. -/
theorem revision_uids_advance {start : Lineage} {events : List LineageEvent}
    (hstart : start.Reached)
    (hrun : Run (Guarded (Lineage.KeepsSequence phc) (Lineage.Step phc)) start events l) :
    start.db.lastRevisionUid ≤ l.db.lastRevisionUid ∧
      (∀ x l', l.Step phc (.transaction x) l' →
        ∀ r ∈ x.revision?, ∀ uid ∈ l.assigned, uid < r.uid) ∧
      ∀ (source target : Database) (initialUser : Option InitialUser) (newIds : List String)
        (t : MigrationReadings),
        source.migrateVersionedDatabaseUnderLock phc initialUser newIds t = .ok target →
        (source.lastRevisionUid ≤ target.lastRevisionUid ↔ source.KeepsSequence) ∧
          (source.lastRevisionUid < target.nextRevisionUid ↔ source.KeepsSequence) := by
  have hl : start.db.lastRevisionUid ≤ l.db.lastRevisionUid ∧ l.Reached :=
    Run.invariant_of_guard
      (I := fun l : Lineage => start.db.lastRevisionUid ≤ l.db.lastRevisionUid ∧ l.Reached)
      (fun hl hkeeps hstep =>
        ⟨hl.1.trans (hstep.lastRevisionUid_le hkeeps), hstep.reached hkeeps hl.2⟩)
      ⟨le_rfl, hstart⟩ hrun
  refine ⟨hl.1, ?_, fun _ _ _ _ _ hok => keepsSequence_iff hok⟩
  intro x l' hstep r hr uid huid
  have hreached := hl.2 uid huid
  cases hstep with
  | transaction hstep => exact hreached.trans_lt (hstep.uid_of_revision hr).1

end

/-! ## Two upgrades -/

theorem DatabaseFile.migrate_step (phc : PhcParser) (file : DatabaseFile) (assigned : List Int)
    (initialUser : Option InitialUser) (newIds : List String) (t : MigrationReadings) :
    Lineage.Step phc ⟨.offline file, assigned⟩ (.migrate initialUser newIds t)
      ⟨.offline (file.migrate phc initialUser newIds t), assigned⟩ := by
  unfold DatabaseFile.migrate
  split
  · rename_i h
    exact .migrate h
  · rename_i h
    exact .migrateFailed h

/-- The vault that had the revisions 1 to 5 was deleted. -/
def emptiedFile : DatabaseFile := ⟨versionFour 5 emptyVault [], by constructor <;> decide⟩

/-- The last of the revisions 1 to 5 is the note that is in the vault. -/
def notedFile : DatabaseFile where
  db := versionFour 5 { emptyVault with version := 5, size := 3 }
    [{ uid := 5, vaultId := "vault", path := "note", relatedpath := none, extension := "md",
       hash := "h", ctime := 0, mtime := 0, folder := false, deleted := false, size := 3,
       pieces := 1, content := some [1, 2, 3], device := "d", userId := 1, ts := 0 }]
  keys := by constructor <;> decide

/-- The file is migrated, the server started, and the first user signs in. -/
def upgradeEvents : List LineageEvent :=
  [.migrate (some firstOwner) [] atZero, .startup 0,
    .account (.issueSessionForUser someTokenHash 1 1000) 0]

/-- The command leads to a file that the server starts on. -/
def DatabaseFile.Upgradable (file : DatabaseFile) : Prop :=
  Database.verifyConnection onePhc (file.migrate onePhc (some firstOwner) [] atZero).db 0 = .ok ()

/-- The server after these events. -/
def DatabaseFile.served (file : DatabaseFile) (h : file.Upgradable) : Store :=
  (Store.mk (file.migrate onePhc (some firstOwner) [] atZero).db.initializeRuntimeStorageUsage
    { DatabaseFile.constraints h with }).account onePhc
      (.issueSessionForUser someTokenHash 1 1000) 0

theorem DatabaseFile.served_of_upgrade (guard : Lineage → LineageEvent → Prop)
    (file : DatabaseFile) (assigned : List Int) (h : file.Upgradable)
    (hmigrate : guard ⟨.offline file, assigned⟩ (.migrate (some firstOwner) [] atZero))
    (hserve : ∀ l, ∀ event ∈ upgradeEvents.tail, guard l event) :
    Run (Guarded guard (Lineage.Step onePhc)) ⟨.offline file, assigned⟩ upgradeEvents
      ⟨.serving (file.served h), assigned⟩ :=
  .cons ⟨hmigrate, file.migrate_step ..⟩
    (.cons ⟨hserve _ _ (by simp [upgradeEvents]), .startup h rfl⟩
      (.cons ⟨hserve _ _ (by simp [upgradeEvents]), .account (Store.account_step ..)⟩ (.nil _)))

theorem upgradable_notedFile : notedFile.Upgradable := by
  unfold DatabaseFile.Upgradable
  decide +kernel

/-- A note that is pushed after the upgrade of a vault with the revision 5. -/
theorem revision_uids_advance_of_note :
    let push := Request.addFileRevision (notePush false 3 1) someTokenHash [1, 2, 3] 10 10
    let x := ((notedFile.served upgradable_notedFile).transact push ⟨500, 500⟩).1
    (∃ r ∈ x.revision?, r.uid = 6) ∧ ∀ r ∈ x.revision?, ∀ uid ∈ [1, 2, 3, 4, 5], uid < r.uid := by
  intro push x
  refine ⟨by decide +kernel, ?_⟩
  have hkeeps : notedFile.db.KeepsSequence := by decide +kernel
  have hserve : ∀ l : Lineage, ∀ event ∈ upgradeEvents.tail, l.KeepsSequence onePhc event := by
    simp [upgradeEvents, Lineage.KeepsSequence]
  have hrun := notedFile.served_of_upgrade (Lineage.KeepsSequence onePhc) [1, 2, 3, 4, 5]
    upgradable_notedFile (fun _ _ => hkeeps) hserve
  exact (revision_uids_advance (by decide +kernel) hrun).2.1 x _
    (.transaction (Store.transact_transact ..))

theorem upgradable_emptiedFile : emptiedFile.Upgradable := by
  unfold DatabaseFile.Upgradable
  decide +kernel

/-- The vault with the revisions 1 to 5 was deleted before the upgrade, and the next revision
gets the `uid` 1 again. -/
theorem revision_uid_reissued :
    let push := Request.addFileRevision (notePush false 3 1) someTokenHash [1, 2, 3] 10 10
    let start : Lineage := ⟨.offline emptiedFile, [1, 2, 3, 4, 5]⟩
    let l : Lineage := ⟨.serving (emptiedFile.served upgradable_emptiedFile), [1, 2, 3, 4, 5]⟩
    let x := ((emptiedFile.served upgradable_emptiedFile).transact push ⟨500, 500⟩).1
    start.Reached ∧ Run (Lineage.Step onePhc) start upgradeEvents l ∧
      (∃ l', l.Step onePhc (.transaction x) l') ∧ ∃ r ∈ x.revision?, r.uid = 1 := by
  intro push start l x
  have hrun := emptiedFile.served_of_upgrade (fun _ _ => True) [1, 2, 3, 4, 5]
    upgradable_emptiedFile trivial fun _ _ _ => trivial
  exact ⟨by decide +kernel, hrun.of_guarded, ⟨_, .transaction (Store.transact_transact ..)⟩,
    by decide +kernel⟩

end Blackglass
