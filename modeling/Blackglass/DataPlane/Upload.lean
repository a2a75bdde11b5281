import Blackglass.DataPlane.Revocation
import Blackglass.Lib.Stretch

/-!
# Uploads

After a push that announces bytes, `upload_chunk` counts the binary frames that come, writes
them to a staged file and commits the file when the announced number of frames is there.  The
frames may be cut in any way.  Each arrival of the connection is one stretch of its task
(`Task.Stretch`), in which other tasks may have done anything to the database before each
transaction; what is observed are the transactions that change the revisions or their contents.

`changes_of_receives` says what a history of arrivals stores: nothing, or just one revision
with the frames' bytes.
-/

namespace Blackglass

open Outcome Rows

/-- A push that waits for its bytes. -/
structure AwaitsBytes (revision : NewRevision) : Prop where
  folder : revision.folder = false
  deleted : revision.deleted = false
  size : 0 < revision.size
  pieces : revision.pieces = piecesOf revision.size

/-- A file of the right size is committed if the checks let it. -/
theorem addFileRevisionInternal_of_checked {db : Database} {r : NewRevision}
    {tokenHash : Option String} {file : Blob} {globalLimit ownerLimit : Int} {t : Readings}
    (hc : Constraints db)
    (hchecked : CommitChecked db tokenHash r.userId r.vaultId r.size globalLimit ownerLimit
      t.authorizedAt) (hversion : db.checkExpectedVersion r = .ok ())
    (hcounter : db.runtimeStorageRejects r.size = false) (hawaits : AwaitsBytes r)
    (hfile : (file.length : Int) = r.size) :
    db.addFileRevisionInternal r tokenHash file globalLimit ownerLimit t =
      .ok ({ r.toRow none t.now with uid := db.nextRevisionUid }.toRevision,
        db.commitRevision (r.toRow none t.now) (some file)) := by
  obtain ⟨hvault, huser⟩ := hchecked.exists
  have hfresh : db.revisionContent.any (fun c => c.uid = db.nextRevisionUid) = false := by
    refine List.any_eq_false.mpr fun c hcontent => ?_
    obtain ⟨s, hs, huid⟩ := hc.contentRevision c hcontent
    have hlt : s.uid < db.nextRevisionUid := lt_nextRowid (List.mem_map_of_mem hs)
    simpa [← huid] using hlt.ne
  have hinsert : db.insertRevision (r.toRow none t.now) =
      .ok (db.nextRevisionUid, db.withRevision (r.toRow none t.now)) := by
    have hreject : (!db.hasVault r.vaultId || !db.hasUser r.userId ||
        db.runtimeStorageRejects r.size) = false := by simp [hvault, huser, hcounter]
    simp [Database.insertRevision, NewRevision.toRow, hreject, rejectIf]
  have hcontent : (db.withRevision (r.toRow none t.now)).insertRevisionContent db.nextRevisionUid
      file = .ok ((db.withRevision (r.toRow none t.now)).withRevisionContent db.nextRevisionUid
        file) := by
    simp only [Database.insertRevisionContent, bind_eq_ok, rejectIf_eq_ok, exists_unit, pure_eq_ok]
    simp [hfresh]
  have hfound := revision?_withRevision db (r.toRow none t.now)
  simp only [Database.addFileRevisionInternal, bind_eq_ok, authorizeMutation_ok, rejectIf_eq_ok,
    orReject_eq_ok, exists_unit, pure_eq_ok, not_or, Bool.not_eq_true, not_not, not_le, not_lt,
    Database.copyInto]
  exact ⟨⟨hawaits.folder, hawaits.deleted, hawaits.size, hawaits.pieces⟩,
    ⟨hchecked.authorized, hchecked.access⟩, hversion, hchecked.quota, _, hinsert, hchecked.uid, _,
    hcontent, ⟨hfile.le, hfile⟩, _, hfound, rfl⟩

namespace DataPlane

open Task

/-! ## What is observed, and what lets an upload through -/

/-- The observer of the revisions: it sees the transactions that change them or their
contents. -/
def revisionChange? : Deed World Frame → Option (World × World)
  | .wrote w w' =>
    if w'.store.db.revisions = w.store.db.revisions ∧
        w'.store.db.revisionContent = w.store.db.revisionContent then none
    else some (w, w')
  | .sent _ => none

/-- An observer that does not look at sessions, the clock and closing frames. -/
structure Overlooks {ο : Type} (obs : Deed World Frame → Option ο) : Prop where
  same : ∀ w w' : World, SameVaults w.store.db w'.store.db → obs (.wrote w w') = none
  close : ∀ code reason, obs (.sent (.close code reason)) = none

theorem overlooks_revisionChange? : Overlooks revisionChange? where
  same _ _ h := if_pos ⟨h.revisions, h.revisionContent⟩
  close _ _ := rfl

/-- Nothing is in the way of a connection: it is not dropped, gets what it waits for, the server
is not shut down, and the session can be renewed whenever it is looked at. -/
structure Clear (env : Surroundings World Input) (server : Server) (session : Session) : Prop where
  kept : ¬env.drops
  granted : ∀ i, env.input i → i.granted = true
  running : ∀ i, env.input i → i.shuttingDown = false
  renewed : ∀ w, env.store w → (w.store.db.renewSessionForVault session.tokenHash session.vault
    server.sessionTtlSecs w.now).1.isSome = true

/-- The commit of a revision is authorised, there is room for it, and the vault has the version
that it expects. -/
structure CommitAllowed (server : Server) (session : Session) (revision : NewRevision) (w : World) :
    Prop where
  checked : CommitChecked w.store.db (some session.tokenHash) revision.userId revision.vaultId
    revision.size server.config.storageQuotaBytes server.config.storageQuotaBytesPerOwner w.now
  version : w.store.db.checkExpectedVersion revision = .ok ()
  counter : w.store.db.runtimeStorageRejects revision.size = false

structure Permitting (env : Surroundings World Input) (server : Server) (session : Session)
    (revision : NewRevision) : Prop extends Clear env server session where
  commits : ∀ w, env.store w → CommitAllowed server session revision w

/-! ## Steps that all handlers are made of -/

section Rules

variable {ο : Type} {env : Surroundings World Input} {obs : Deed World Frame → Option ο}
  {post : List ο → Option Label → Prop} {server : Server} {peer : Peer} {reason : String}
  {k : Program}

theorem yields_close (hobs : Overlooks obs) (hnone : post [] none) (code : Nat) (reason : String) :
    (close code reason).Yields env obs post :=
  .sendUnseen (fun _ => hnone) (hobs.close code reason) (.stop hnone)

theorem yields_atTime {k : Input → Program} (hobs : Overlooks obs)
    (hfail : ¬Clear env server peer.session → post [] none)
    (h : ∀ i, env.input i → (k i).Yields env obs post) : (atTime k).Yields env obs post := by
  have hdrop : env.drops → post [] none := fun hdrops => hfail fun hclear => hclear.kept hdrops
  exact .input hdrop fun i hi =>
    .unseen hdrop (fun w => hobs.same _ _ (.refl _)) fun _ _ => h i hi

theorem yields_check (hobs : Overlooks obs)
    (hfail : ¬Clear env server peer.session → post [] none) (h : k.Yields env obs post) :
    (check peer reason k).Yields env obs post := by
  refine yields_atTime hobs hfail fun i hi => .unseen
    (fun hdrops => hfail fun hclear => hclear.kept hdrops) (fun w => hobs.same _ _ (.refl _))
    fun w hw => ?_
  split
  · exact h
  · rename_i hdenied
    refine yields_close hobs (hfail fun hclear => hdenied ?_) _ _
    rw [hclear.granted i hi, Bool.true_and]
    exact valid_of_renewSessionForVault (hclear.renewed w hw)

theorem yields_renewActiveSession (hobs : Overlooks obs)
    (hfail : ¬Clear env server peer.session → post [] none) (h : k.Yields env obs post) :
    (renewActiveSession server peer reason k).Yields env obs post := by
  refine yields_atTime hobs hfail fun i hi => ?_
  split
  · refine .unseen (fun hdrops => hfail fun hclear => hclear.kept hdrops)
      (fun w => hobs.same _ _ (sameVaults_renewSessionForVault ..)) fun w hw => ?_
    split
    · exact h
    · rename_i hdenied
      exact yields_close hobs (hfail fun hclear => hdenied (hclear.renewed w hw)) _ _
  · rename_i hdenied
    exact yields_close hobs (hfail fun hclear => hdenied (hclear.granted i hi)) _ _

theorem yields_unlessShuttingDown (hfail : ¬Clear env server peer.session →
      post [] none ∧ post [] (some (.loop peer))) (h : k.Yields env obs post) :
    (unlessShuttingDown peer k).Yields env obs post := by
  have hdrop : env.drops → post [] none := fun hdrops =>
    (hfail fun hclear => hclear.kept hdrops).1
  refine .input hdrop fun i hi => ?_
  split
  · rename_i hshut
    refine .goto hdrop (hfail fun hclear => ?_).2
    rw [hclear.running i hi] at hshut
    cases hshut
  · exact h

end Rules

/-! ## The commit -/

/-- A transaction has added the revision, with just these bytes, and nothing else to the
revisions. -/
def Stored (revision : NewRevision) (bytes : Blob) (change : World × World) : Prop :=
  ∃ row : RevisionRow, ∃ ts : Int,
    row = { revision.toRow none ts with uid := change.1.store.db.nextRevisionUid } ∧
    change.2.store.db.revisions = change.1.store.db.revisions ++ [row] ∧
    change.2.store.db.revisionContent = change.1.store.db.revisionContent ++ [⟨row.uid, bytes⟩]

section Commit

variable {server : Server} {session : Session} {revision : NewRevision} {file : Blob}

/-- The commit of a staged file. -/
def uploadRequest (server : Server) (session : Session) (revision : NewRevision) (file : Blob) :
    Request :=
  .addFileRevision revision session.tokenHash file server.config.storageQuotaBytes
    server.config.storageQuotaBytesPerOwner

/-- A transaction that succeeds leaves its result. -/
theorem World.db_commit {w : World} {request : Request} {later : Int} {answer : Answer}
    {db' : Database} (h : request.execute w.store.db ⟨w.now, later⟩ = .ok (answer, db')) :
    (w.commit request later).store.db = db' := by
  unfold World.commit Store.execute
  split
  · rename_i stored hstored
    split at hstored
    · rename_i hok
      cases hstored
      exact (Prod.mk.inj (Except.ok.inj (hok.symm.trans h))).2
    · cases hstored
  · rename_i herror
    split at herror
    · cases herror
    · rename_i herror'
      cases herror'.symm.trans h

/-- The commit of an upload changes nothing, or it stores the staged file. -/
theorem commit_uploadRequest (w : World) (later : Int) :
    w.commit (uploadRequest server session revision file) later = w ∨
      ((file.length : Int) = revision.size ∧
        Stored revision file (w, w.commit (uploadRequest server session revision file) later)) := by
  obtain hsame | ⟨answer, store, heffect, hstore⟩ :=
    w.commit_cases (uploadRequest server session revision file) later
  · exact .inl hsame
  · right
    cases heffect with
    | addFileRevision hok =>
      obtain ⟨-, -, -, -, -, -, hlength, -, hdb⟩ := addFileRevisionInternal_ok hok
      refine ⟨hlength, _, later, rfl, ?_, ?_⟩
      · rw [hstore]
        exact hdb ▸ commitRevision_revisions _ _ _
      · rw [hstore]
        exact hdb ▸ commitRevision_revisionContent _ _ _

theorem Stored.ne {bytes : Blob} {w w' : World} (h : Stored revision bytes (w, w')) :
    revisionChange? (.wrote w w') = some (w, w') := by
  obtain ⟨row, ts, -, hrevisions, -⟩ := h
  refine if_neg fun hsame => ?_
  have hlength := congrArg List.length (hrevisions.symm.trans hsame.1)
  simp at hlength

/-- A commit that is allowed stores the file. -/
theorem execute_uploadRequest {w : World} (hallowed : CommitAllowed server session revision w)
    (hawaits : AwaitsBytes revision) (hfile : (file.length : Int) = revision.size) (later : Int) :
    (uploadRequest server session revision file).execute w.store.db ⟨w.now, later⟩ =
      .ok (.stored { revision.toRow none later with
          uid := w.store.db.nextRevisionUid }.toRevision,
        w.store.db.commitRevision (revision.toRow none later) (some file)) := by
  have hok := addFileRevisionInternal_of_checked (t := ⟨w.now, later⟩) w.store.constraints
    hallowed.checked hallowed.version hallowed.counter hawaits hfile
  simp only [uploadRequest, Request.execute, bind_eq_ok, pure_eq_ok]
  exact ⟨_, hok, rfl⟩

theorem commit_ne_of_allowed {w : World} (hallowed : CommitAllowed server session revision w)
    (hawaits : AwaitsBytes revision) (hfile : (file.length : Int) = revision.size) (later : Int) :
    w.commit (uploadRequest server session revision file) later ≠ w := by
  intro hsame
  have hstore := World.db_commit (execute_uploadRequest hallowed hawaits hfile later)
  rw [hsame] at hstore
  have hlength := congrArg (fun db : Database => db.revisions.length) hstore
  simp at hlength

end Commit

/-! ## One frame -/

/-- The frames are as many, as small and together as long as the push has announced. -/
def Fits (revision : NewRevision) (frames : List Blob) : Prop :=
  (frames.length : Int) = revision.pieces ∧
    (∀ frame ∈ frames, (frame.length : Int) ≤ revisionPieceSize) ∧
    (frames.flatten.length : Int) = revision.size

/-- What an upload keeps of the frames so far.  A frame that came during a shutdown is counted
and not written. -/
structure Pending.Counts (p : Pending) (frames : List Blob) : Prop where
  pieces : p.pieces = frames.length
  bytes : p.bytes = frames.flatten.length
  file_le : p.file.length ≤ frames.flatten.length
  file_eq : p.file.length = frames.flatten.length → p.file = frames.flatten

namespace Pending.Counts

variable {p : Pending} {frames : List Blob}

theorem written (h : p.Counts frames) (bytes : Blob) :
    Pending.Counts { p with
      pieces := p.pieces + 1, bytes := p.bytes + bytes.length, file := p.file ++ bytes }
      (frames ++ [bytes]) where
  pieces := by simp [h.pieces]
  bytes := by simp [h.bytes]
  file_le := by simpa using h.file_le
  file_eq hlength := by
    have hfile := h.file_eq (by simpa using hlength)
    simp [hfile]

theorem skipped (h : p.Counts frames) (bytes : Blob) :
    Pending.Counts { p with pieces := p.pieces + 1, bytes := p.bytes + bytes.length }
      (frames ++ [bytes]) where
  pieces := by simp [h.pieces]
  bytes := by simp [h.bytes]
  file_le := by
    have hle := h.file_le
    simp only [List.flatten_append, List.length_append, List.flatten_singleton]
    omega
  file_eq hlength := by
    have hle := h.file_le
    simp only [List.flatten_append, List.length_append, List.flatten_singleton] at hlength ⊢
    have hempty : bytes = [] := List.eq_nil_of_length_eq_zero (by omega)
    rw [hempty, List.append_nil]
    exact h.file_eq (by omega)

end Pending.Counts

section Frames

variable (env : Surroundings World Input) (server : Server) (session : Session)
  (revision : NewRevision)

/-- The upload of a revision is under way, with these frames so far. -/
structure Staged (frames : List Blob) (peer : Peer) : Prop where
  session_eq : peer.session = session
  pending : ∃ p, peer.pending = some p ∧ p.revision = revision ∧ p.Counts frames ∧
    (Permitting env server session revision →
      p.file = frames.flatten ∧ (frames.length : Int) < revision.pieces)
  small : ∀ frame ∈ frames, (frame.length : Int) ≤ revisionPieceSize

/-- The upload is over, and the connection goes on, to the loop in the end. -/
def Rests (exit : Option Label) : Prop :=
  ∀ label ∈ exit, ∃ peer : Peer, peer.pending = none ∧
    (label = .loop peer ∨ ∃ committed conditional, label = .acknowledge peer committed conditional)

/-- What becomes of an upload with the last of these frames. -/
inductive FrameDone (frames : List Blob) : List (World × World) → Option Label → Prop where
  | refused : (Permitting env server session revision →
      ∀ rest, ¬Fits revision ((frames ++ rest).take revision.pieces.toNat)) →
      FrameDone frames [] none
  | staged {peer : Peer} : Staged env server session revision frames peer →
      FrameDone frames [] (some (.loop peer))
  | failed {exit : Option Label} : ¬Permitting env server session revision → Rests exit →
      FrameDone frames [] exit
  | stored {change : World × World} {exit : Option Label} : Fits revision frames →
      Stored revision frames.flatten change → Rests exit → FrameDone frames [change] exit

end Frames

section

variable {env : Surroundings World Input} {server : Server} {session : Session}
  {revision : NewRevision} {frames : List Blob} {peer : Peer}

theorem rests_none : Rests none := fun _ h => nomatch h

theorem Rests.of_loop (h : Rests (some (.loop peer))) : peer.pending = none := by
  obtain ⟨_, hpending, hloop | ⟨_, _, hlabel⟩⟩ := h _ rfl
  · cases hloop
    exact hpending
  · cases hlabel

theorem Rests.of_acknowledge {committed : Stream.Event} {conditional : Bool}
    (h : Rests (some (.acknowledge peer committed conditional))) : peer.pending = none := by
  obtain ⟨_, hpending, hloop | ⟨_, _, hlabel⟩⟩ := h _ rfl
  · cases hloop
  · cases hlabel
    exact hpending

theorem rests_loop (peer : Peer) : Rests (some (.loop peer.idle)) := by
  rintro _ ⟨⟩
  exact ⟨peer.idle, rfl, .inl rfl⟩

theorem rests_acknowledge (peer : Peer) (committed : Stream.Event) (conditional : Bool) :
    Rests (some (.acknowledge peer.idle committed conditional)) := by
  rintro _ ⟨⟩
  exact ⟨peer.idle, rfl, .inr ⟨committed, conditional, rfl⟩⟩

/-- After its commit an upload is over, whatever the commit answered. -/
theorem yields_afterPush {post : List (World × World) → Option Label → Prop}
    (hpost : ∀ exit, Rests exit → post [] exit) (answer : Except DbError Answer) :
    (afterPush peer.idle revision (close 1008 storageQuotaClientError) answer).Yields env
      revisionChange? post := by
  have hnone := hpost none rests_none
  have hdrop : env.drops → post [] none := fun _ => hnone
  unfold afterPush
  split
  · unfold publishCommitted
    split
    · exact .stop hnone
    · refine .input hdrop fun i _ => ?_
      split
      · exact .goto hdrop (hpost _ (rests_loop peer))
      · exact .goto hdrop (hpost _ (rests_acknowledge peer _ _))
  · exact yields_close overlooks_revisionChange? hnone _ _
  · exact .sendUnseen hdrop rfl (.goto hdrop (hpost _ (rests_loop peer)))
  · exact .stop hnone

/-- The commit of a complete upload. -/
theorem yields_commit (hsession : peer.session = session) {p : Pending}
    (hrevision : p.revision = revision) (hfits : Fits revision frames) (hcounts : p.Counts frames)
    (hfile : Permitting env server session revision → p.file = frames.flatten)
    (hawaits : AwaitsBytes revision) :
    (commit (.addFileRevision p.revision peer.session.tokenHash p.file
        server.config.storageQuotaBytes server.config.storageQuotaBytesPerOwner) <|
      afterPush peer.idle p.revision (close 1008 storageQuotaClientError)).Yields env
        revisionChange? (FrameDone env server session revision frames) := by
  subst hrevision hsession
  have hfail : ¬Clear env server peer.session →
      FrameDone env server peer.session p.revision frames [] none :=
    fun hclear => .failed (fun h => hclear h.toClear) rests_none
  have hdrop : env.drops → FrameDone env server peer.session p.revision frames [] none :=
    fun hdrops => hfail fun hclear => hclear.kept hdrops
  refine yields_atTime overlooks_revisionChange? hfail fun i _ => .transact hdrop fun w hw => ?_
  have hcommit : w.commit (uploadRequest server peer.session p.revision p.file) i.later = w ∨
      ((p.file.length : Int) = p.revision.size ∧ Stored p.revision p.file
        (w, w.commit (uploadRequest server peer.session p.revision p.file) i.later)) :=
    commit_uploadRequest w i.later
  change Code.Yields env revisionChange? (fun seen => FrameDone env server peer.session p.revision
    frames ((revisionChange? (.wrote w (w.commit (uploadRequest server peer.session p.revision
      p.file) i.later))).toList ++ seen)) _
  obtain hsame | ⟨hlength, hstored⟩ := hcommit
  · rw [hsame]
    refine yields_afterPush (fun exit hrests => ?_) _
    rw [overlooks_revisionChange?.same w w (.refl _)]
    refine .failed (fun hpermitting => ?_) hrests
    refine commit_ne_of_allowed (hpermitting.commits w hw) hawaits ?_ i.later hsame
    rw [hfile hpermitting, hfits.2.2]
  · rw [hstored.ne]
    refine yields_afterPush (fun exit hrests => ?_) _
    have hflatten : p.file = frames.flatten := hcounts.file_eq (by
      have hsize := hfits.2.2
      omega)
    rw [hflatten] at hstored ⊢
    exact .stored hfits hstored hrests

/-- Frames that are too many, too large or together too long do not fit, whatever comes after
them. -/
theorem not_fits_of_long {rest : List Blob} (hpieces : (frames.length : Int) ≤ revision.pieces)
    (hlong : (∃ frame ∈ frames, revisionPieceSize < (frame.length : Int)) ∨
      revision.size < frames.flatten.length ∨
      (frames.length : Int) = revision.pieces ∧ (frames.flatten.length : Int) ≠ revision.size) :
    ¬Fits revision ((frames ++ rest).take revision.pieces.toNat) := by
  rintro ⟨-, hsmall, hsize⟩
  have htake : (frames ++ rest).take revision.pieces.toNat =
      frames ++ rest.take (revision.pieces.toNat - frames.length) := by
    rw [List.take_append, List.take_of_length_le (by omega)]
  rw [htake] at hsmall hsize
  rcases hlong with ⟨frame, hframe, hlarge⟩ | hlarge | ⟨hlast, hne⟩
  · have hle := hsmall frame (List.mem_append_left _ hframe)
    omega
  · rw [List.flatten_append, List.length_append] at hsize
    omega
  · have hrest : revision.pieces.toNat - frames.length = 0 := by omega
    rw [hrest, List.take_zero, List.append_nil] at hsize
    exact hne hsize

theorem yields_uploadChunk (hawaits : AwaitsBytes revision)
    (hstaged : Staged env server session revision frames peer) (bytes : Blob) :
    (uploadChunk server peer bytes).Yields env revisionChange?
      (FrameDone env server session revision (frames ++ [bytes])) := by
  obtain ⟨p, hpending, rfl, hcounts, hpermitted⟩ := hstaged.pending
  obtain rfl := hstaged.session_eq
  have hlast : ((frames ++ [bytes]).length : Int) = p.pieces + 1 := by simp [hcounts.pieces]
  have hbytes : ((frames ++ [bytes]).flatten.length : Int) = p.bytes + bytes.length := by
    simp [hcounts.bytes]
  have hlong : ∀ hlong : (∃ frame ∈ frames ++ [bytes], revisionPieceSize < (frame.length : Int)) ∨
      p.revision.size < (frames ++ [bytes]).flatten.length ∨
      ((frames ++ [bytes]).length : Int) = p.revision.pieces ∧
        ((frames ++ [bytes]).flatten.length : Int) ≠ p.revision.size,
      FrameDone env server peer.session p.revision (frames ++ [bytes]) [] none := by
    refine fun hlong => .refused fun hpermitting rest => not_fits_of_long ?_ hlong
    have hshort := (hpermitted hpermitting).2
    rw [List.length_append, List.length_singleton]
    omega
  unfold uploadChunk
  split
  · rename_i hnone
    cases hnone.symm.trans hpending
  · rename_i q hq
    obtain rfl := Option.some.inj (hpending.symm.trans hq)
    simp only
    split
    · rename_i hlarge
      exact yields_close overlooks_revisionChange? (hlong (.inl ⟨bytes, by simp, hlarge⟩)) _ _
    rename_i hsmall
    have hallSmall : ∀ frame ∈ frames ++ [bytes], (frame.length : Int) ≤ revisionPieceSize := by
      intro frame hframe
      rcases List.mem_append.mp hframe with hframe | hframe
      · exact hstaged.small frame hframe
      · rw [List.mem_singleton.mp hframe]
        exact not_lt.mp hsmall
    split
    · rename_i hexceeds
      refine yields_close overlooks_revisionChange? ?_ _ _
      rcases hexceeds with hmany | hmuch
      · refine .refused fun hpermitting => ?_
        have hshort := (hpermitted hpermitting).2
        have hpieces := hcounts.pieces
        omega
      · exact hlong (.inr (.inl (hbytes ▸ hmuch)))
    rename_i hwithin
    have hfailed :
        ¬Clear env server peer.session → ¬Permitting env server peer.session p.revision :=
      fun hclear hpermitting => hclear hpermitting.toClear
    refine yields_unlessShuttingDown (fun hclear => ⟨.failed (hfailed hclear) rests_none,
      .staged ⟨rfl, ⟨_, rfl, rfl, hcounts.skipped bytes, fun h => absurd h (hfailed hclear)⟩,
        hallSmall⟩⟩) ?_
    split
    · rename_i hmore
      refine .sendUnseen ?_ rfl (.goto ?_ (.staged ⟨rfl, ⟨_, rfl, rfl, hcounts.written bytes,
        fun hpermitting => ⟨?_, hlast ▸ hmore⟩⟩, hallSmall⟩))
      · exact fun hdrops => .failed (fun h => h.kept hdrops) rests_none
      · exact fun hdrops => .failed (fun h => h.kept hdrops) rests_none
      · simp [(hpermitted hpermitting).1]
    rename_i hmore
    have hcomplete : ((frames ++ [bytes]).length : Int) = p.revision.pieces := by omega
    split
    · rename_i hsize
      exact yields_close overlooks_revisionChange?
        (hlong (.inr (.inr ⟨hcomplete, hbytes ▸ hsize⟩))) _ _
    rename_i hsize
    let written : Pending :=
      { p with pieces := p.pieces + 1, bytes := p.bytes + bytes.length, file := p.file ++ bytes }
    refine yields_commit (p := written) rfl rfl
      ⟨hcomplete, hallSmall, hbytes.trans (not_not.mp hsize)⟩ (hcounts.written bytes)
      (fun hpermitting => ?_) hawaits
    simp [written, (hpermitted hpermitting).1]

end

/-! ## Arrivals -/

/-- What `socket_loop` does with an arrival. -/
def arrived (server : Server) (peer : Peer) : Arrival → Program
  | .message .close => .stop
  | .message message => incoming server peer message
  | .event delivery => delivered peer delivery
  | .revalidation => check peer "Session expired or revoked" (.goto (.loop peer))
  | .cutoff cutoff => cutoff.code (some peer)

theorem socketLoop_eq (server : Server) (peer : Peer) :
    socketLoop server peer = .input fun i => arrived server peer i.arrival := by
  unfold socketLoop arrived
  rfl

def Arrival.frame? : Arrival → Option Blob
  | .message (.binary bytes) => some bytes
  | _ => none

def Arrival.isText : Arrival → Bool
  | .message (.text ..) => true
  | _ => false

theorem Arrival.eq_binary {arrival : Arrival} {bytes : Blob}
    (h : arrival.frame? = some bytes) : arrival = .message (.binary bytes) := by
  unfold Arrival.frame? at h
  split at h <;> cases h
  rfl

/-- What ends a connection to the vault while it waits for bytes.  Everything else (events,
pings and pongs, the ticks of the revalidation and the branches whose guards are off) leaves it
waiting. -/
def Arrival.ends (vault : String) : Arrival → Bool
  | .message .close | .event .lagged | .event .closed => true
  | .event (.invalidated gone) => gone = vault
  | .cutoff .shutdown | .cutoff .cancellation | .cutoff .uploadIdle => true
  | _ => false

/-- The binary frames among the arrivals. -/
def framesOf (arrivals : List Arrival) : List Blob := arrivals.filterMap Arrival.frame?

/-- Nothing ends the connection before it has `pieces` frames. -/
def Undisturbed (vault : String) (pieces : Nat) (arrivals : List Arrival) : Prop :=
  ∀ before arrival after, arrivals = before ++ arrival :: after →
    (framesOf before).length < pieces → arrival.ends vault = false

namespace Undisturbed

variable {vault : String} {pieces : Nat} {arrival : Arrival} {arrivals : List Arrival}

theorem head (h : Undisturbed vault pieces (arrival :: arrivals)) (hpieces : 0 < pieces) :
    arrival.ends vault = false := h [] arrival arrivals rfl hpieces

theorem tail (h : Undisturbed vault pieces (arrival :: arrivals)) :
    Undisturbed vault (pieces - (framesOf [arrival]).length) arrivals := by
  intro before later after hsplit hfew
  refine h (arrival :: before) later after (by rw [hsplit]; rfl) ?_
  have hframes : framesOf (arrival :: before) = framesOf [arrival] ++ framesOf before :=
    @List.filterMap_append _ _ [arrival] before _
  rw [hframes, List.length_append]
  omega

end Undisturbed

/-- The wait for the event of one's own commit. -/
def Label.Acknowledges (label : Label) : Prop :=
  ∃ peer committed conditional, label = .acknowledge peer committed conditional

/-- A connection takes in the arrivals, one after the other, and does `deeds`.  It may come to
an end before it has taken in all; and a history may be cut where the last arrival has led out of
the loop. -/
inductive Receives (env : Surroundings World Input) (server : Server) :
    Peer → List Arrival → List (Deed World Frame) → Prop where
  | nil (peer : Peer) : Receives env server peer [] []
  | more {peer peer' : Peer} {arrival : Arrival} {arrivals : List Arrival}
      {deeds deeds' : List (Deed World Frame)} :
      Through env (body server) Label.Acknowledges (arrived server peer arrival) deeds
        (some (.loop peer')) →
      Receives env server peer' arrivals deeds' →
      Receives env server peer (arrival :: arrivals) (deeds ++ deeds')
  | last {peer : Peer} {arrival : Arrival} {arrivals : List Arrival}
      {deeds : List (Deed World Frame)} {exit : Option Label} :
      Stretch env (arrived server peer arrival) deeds exit →
      (∀ peer', exit ≠ some (.loop peer')) →
      Receives env server peer (arrival :: arrivals) deeds

/-- Where the surroundings have something to give, every history of arrivals is taken in. -/
theorem exists_receives {env : Surroundings World Input} (server : Server) {i : Input} {w : World}
    (hi : env.input i) (hw : env.store w) (arrivals : List Arrival) (peer : Peer) :
    ∃ deeds, Receives env server peer arrivals deeds := by
  induction arrivals generalizing peer with
  | nil => exact ⟨[], .nil peer⟩
  | cons arrival arrivals ih =>
    have hplay := stretch_play hi hw (arrived server peer arrival)
    generalize ((arrived server peer arrival).play i w).2 = exit at hplay
    by_cases hloop : ∃ peer', exit = some (.loop peer')
    · obtain ⟨peer', rfl⟩ := hloop
      obtain ⟨deeds, hdeeds⟩ := ih peer'
      refine ⟨_, .more (.leave hplay ?_) hdeeds⟩
      rintro _ ⟨⟩ ⟨_, _, _, hlabel⟩
      cases hlabel
    · exact ⟨_, .last hplay fun peer' hexit => hloop ⟨peer', hexit⟩⟩

section

variable {env : Surroundings World Input} {server : Server} {session : Session}
  {revision : NewRevision} {frames : List Blob} {peer : Peer}

/-- Nothing changes, and the connection comes back to the loop if to anything. -/
def Idles (peer : Peer) (seen : List (World × World)) (exit : Option Label) : Prop :=
  seen = [] ∧ ∀ label ∈ exit, label = .loop peer

theorem idles_none : Idles peer [] none := ⟨rfl, fun _ h => nomatch h⟩

theorem idles_loop : Idles peer [] (some (.loop peer)) := by
  refine ⟨rfl, ?_⟩
  rintro _ ⟨⟩
  rfl

/-- Nothing changes, and the connection is back in the loop unless something is in its way or it
is idle, or the arrival ends it. -/
def Passes (env : Surroundings World Input) (server : Server) (peer : Peer) (arrival : Arrival)
    (seen : List (World × World)) (exit : Option Label) : Prop :=
  Idles peer seen exit ∧ (exit = none → Clear env server peer.session →
    peer.pending.isSome = true → arrival.ends peer.session.vault = true)

/-- What is neither text nor a binary frame changes nothing. -/
theorem yields_other {arrival : Arrival} (htext : arrival.isText = false)
    (hframe : arrival.frame? = none) :
    (arrived server peer arrival).Yields env revisionChange?
      (Passes env server peer arrival) := by
  have hobs := overlooks_revisionChange?
  have hfail : ¬Clear env server peer.session → Passes env server peer arrival [] none :=
    fun hdenied => ⟨idles_none, fun _ hclear => absurd hclear hdenied⟩
  have hdrop : env.drops → Passes env server peer arrival [] none :=
    fun hdrops => hfail fun hclear => hclear.kept hdrops
  have hback : Passes env server peer arrival [] (some (.loop peer)) :=
    ⟨idles_loop, fun hnone => nomatch hnone⟩
  have hloop : (Code.goto (.loop peer) : Program).Yields env revisionChange?
      (Passes env server peer arrival) := .goto hdrop hback
  have hreply : ∀ frame, revisionChange? (.sent frame) = none →
      (reply peer frame).Yields env revisionChange? (Passes env server peer arrival) :=
    fun _ hunseen => .sendUnseen hdrop hunseen (.goto hdrop hback)
  have hends : (peer.pending.isSome = true → arrival.ends peer.session.vault = true) →
      Passes env server peer arrival [] none := fun hends => ⟨idles_none, fun _ _ => hends⟩
  cases arrival with
  | message message =>
    cases message with
    | text _ _ => cases htext
    | binary _ => cases hframe
    | ping payload =>
      exact yields_renewActiveSession hobs hfail (yields_check hobs hfail (hreply _ rfl))
    | pong => exact yields_renewActiveSession hobs hfail hloop
    | close => exact .stop (hends fun _ => rfl)
  | event delivery =>
    cases delivery with
    | event event =>
      change (if event.vault = peer.session.vault then _ else _ : Program).Yields _ _ _
      split
      · exact yields_check hobs hfail (hreply _ rfl)
      · exact hloop
    | invalidated vault =>
      change (if vault = peer.session.vault then _ else _ : Program).Yields _ _ _
      split
      · rename_i hgone
        exact yields_close hobs (hends fun _ => decide_eq_true hgone) _ _
      · exact hloop
    | lagged => exact yields_close hobs (hends fun _ => rfl) _ _
    | closed => exact .stop (hends fun _ => rfl)
  | revalidation => exact yields_check hobs hfail hloop
  | cutoff cutoff =>
    cases cutoff with
    | shutdown | cancellation => exact yields_close hobs (hends fun _ => rfl) _ _
    | authenticationDeadline => exact hloop
    | uploadIdle =>
      change (if peer.pending.isSome then _ else _ : Program).Yields _ _ _
      split
      · exact yields_close hobs (hends fun _ => rfl) _ _
      · exact hloop
    | peerIdle =>
      change (if peer.pending.isNone then _ else _ : Program).Yields _ _ _
      split
      · rename_i hidle
        refine yields_close hobs (hends fun hpending => ?_) _ _
        rw [Option.isNone_iff_eq_none.mp hidle] at hpending
        cases hpending
      · exact hloop

theorem yields_binary (hawaits : AwaitsBytes revision)
    (hstaged : Staged env server session revision frames peer) (bytes : Blob) :
    (arrived server peer (.message (.binary bytes))).Yields env revisionChange?
      (FrameDone env server session revision (frames ++ [bytes])) := by
  have hfail : ¬Clear env server peer.session →
      FrameDone env server session revision (frames ++ [bytes]) [] none := fun hclear =>
    .failed (fun h => hclear (hstaged.session_eq ▸ h.toClear)) rests_none
  exact yields_renewActiveSession overlooks_revisionChange? hfail
    (yields_check overlooks_revisionChange? hfail (yields_uploadChunk hawaits hstaged bytes))

/-- A binary frame that nobody waits for ends the connection. -/
theorem yields_unexpected (hpending : peer.pending = none) (bytes : Blob) :
    (arrived server peer (.message (.binary bytes))).Yields env revisionChange? (Idles peer) := by
  have hfail : ¬Clear env server peer.session → Idles peer [] none := fun _ => idles_none
  refine yields_renewActiveSession overlooks_revisionChange? hfail
    (yields_check overlooks_revisionChange? hfail ?_)
  unfold uploadChunk
  split
  · exact yields_close overlooks_revisionChange? idles_none _ _
  · rename_i hsome
    cases hpending.symm.trans hsome

/-- The wait for one's own event changes nothing. -/
theorem yields_acknowledgeCommit {post : List (World × World) → Option Label → Prop}
    (server : Server) (hpending : peer.pending = none) (hpost : ∀ exit, Rests exit → post [] exit)
    (committed : Stream.Event) (conditional : Bool) :
    (acknowledgeCommit peer committed conditional).Yields env revisionChange? post := by
  have hnone := hpost none rests_none
  have hdrop : env.drops → post [] none := fun _ => hnone
  have hloop : post [] (some (.loop peer)) := hpost _ (by
    rintro _ ⟨⟩
    exact ⟨peer, hpending, .inl rfl⟩)
  have hagain : (Code.goto (.acknowledge peer committed conditional) : Program).Yields env
      revisionChange? post := .goto hdrop (hpost _ (by
    rintro _ ⟨⟩
    exact ⟨peer, hpending, .inr ⟨committed, conditional, rfl⟩⟩))
  have hobs := overlooks_revisionChange?
  have hfail : ¬Clear env server peer.session → post [] none := fun _ => hnone
  have hshut : ¬Clear env server peer.session → post [] none ∧ post [] (some (.loop peer)) :=
    fun _ => ⟨hnone, hloop⟩
  refine .input hdrop fun i _ => ?_
  split
  · split
    · exact yields_close hobs hnone _ _
    · exact hagain
  · split
    · refine yields_unlessShuttingDown hshut (yields_check hobs hfail (.sendUnseen hdrop rfl ?_))
      split
      · exact yields_check hobs hfail (.sendUnseen hdrop rfl (.goto hdrop hloop))
      · split
        · exact .stop hnone
        · exact hagain
    · exact hagain
  · exact yields_close hobs hnone _ _
  · exact .stop hnone

/-! ## Histories -/

/-- The changes of the revisions among what a task has done. -/
def changes (deeds : List (Deed World Frame)) : List (World × World) :=
  deeds.filterMap revisionChange?

theorem changes_append (deeds deeds' : List (Deed World Frame)) :
    changes (deeds ++ deeds') = changes deeds ++ changes deeds' := List.filterMap_append

/-- An arrival after which nothing is left to acknowledge is handled in one stretch. -/
theorem Idles.through {c : Program} (hc : c.Yields env revisionChange? (Idles peer))
    {deeds : List (Deed World Frame)} {exit : Option Label}
    (h : Through env (body server) Label.Acknowledges c deeds exit) :
    Idles peer (changes deeds) exit := by
  refine h.invariant hc fun seen label hinner hidles => ?_
  obtain ⟨peer', committed, conditional, rfl⟩ := hinner
  cases hidles.2 _ rfl

/-- Whatever a binary frame leads to, it is done with when the connection is back in the loop. -/
theorem FrameDone.through {c : Program}
    (hc : c.Yields env revisionChange? (FrameDone env server session revision frames))
    {deeds : List (Deed World Frame)} {exit : Option Label}
    (h : Through env (body server) Label.Acknowledges c deeds exit) :
    FrameDone env server session revision frames (changes deeds) exit := by
  refine h.invariant hc fun seen label hinner hdone => ?_
  obtain ⟨peer', committed, conditional, rfl⟩ := hinner
  cases hdone with
  | failed hdenied hrests =>
    exact yields_acknowledgeCommit server hrests.of_acknowledge
      (fun exit h => .failed hdenied h) _ _
  | stored hfits hstored hrests =>
    exact yields_acknowledgeCommit server hrests.of_acknowledge
      (fun exit h => .stored hfits hstored h) _ _

/-- A connection that waits for no bytes stores none, unless a message asks for something. -/
theorem changes_of_resting {arrivals : List Arrival} {deeds : List (Deed World Frame)}
    (h : Receives env server peer arrivals deeds) (hpending : peer.pending = none)
    (htext : ∀ arrival ∈ arrivals, arrival.isText = false) : changes deeds = [] := by
  have hidles : ∀ peer : Peer, peer.pending = none → ∀ arrival : Arrival,
      arrival.isText = false →
      (arrived server peer arrival).Yields env revisionChange? (Idles peer) := by
    intro peer hpending arrival htext
    cases hframe : arrival.frame? with
    | none => exact (yields_other htext hframe).mono fun _ _ hpasses => hpasses.1
    | some bytes =>
      obtain rfl := Arrival.eq_binary hframe
      exact yields_unexpected hpending bytes
  induction h with
  | nil peer => rfl
  | more hthrough _ ih =>
    have hstep := Idles.through (hidles _ hpending _ (htext _ List.mem_cons_self)) hthrough
    cases hstep.2 _ rfl
    rw [changes_append, hstep.1,
      ih hpending fun arrival harrival => htext arrival (List.mem_cons_of_mem _ harrival)]
    rfl
  | last hstretch _ =>
    exact ((hidles _ hpending _ (htext _ List.mem_cons_self)).stretch hstretch).1

/-- What the frames of an upload store: one revision with their bytes if they fit, and nothing
otherwise; and if nothing is in the way then those that fit are stored. -/
inductive UploadOutcome (env : Surroundings World Input) (server : Server) (session : Session)
    (revision : NewRevision) (undisturbed : Prop) (frames : List Blob) :
    List (World × World) → Prop where
  | nothing : (Permitting env server session revision → undisturbed → ¬Fits revision frames) →
      UploadOutcome env server session revision undisturbed frames []
  | one {change : World × World} : Fits revision frames →
      Stored revision frames.flatten change →
      UploadOutcome env server session revision undisturbed frames [change]

theorem UploadOutcome.mono {undisturbed undisturbed' : Prop} (himp : undisturbed' → undisturbed)
    {seen : List (World × World)}
    (h : UploadOutcome env server session revision undisturbed frames seen) :
    UploadOutcome env server session revision undisturbed' frames seen := by
  cases h with
  | nothing hnone => exact .nothing fun hpermitting hcalm => hnone hpermitting (himp hcalm)
  | one hfits hstored => exact .one hfits hstored

/-- The frames that complete an upload are those it is judged by. -/
theorem Fits.take (h : Fits revision frames) (rest : List Blob) :
    (frames ++ rest).take revision.pieces.toNat = frames := by
  have hlength := h.1
  exact List.take_left' (by omega)

theorem UploadOutcome.of_fits {undisturbed : Prop} {change : World × World}
    (hfits : Fits revision frames) (hstored : Stored revision frames.flatten change)
    (rest : List Blob) : UploadOutcome env server session revision undisturbed
      ((frames ++ rest).take revision.pieces.toNat) [change] := by
  rw [hfits.take rest]
  exact .one hfits hstored

theorem framesOf_binary (frames : List Blob) (bytes : Blob) (arrivals : List Arrival) :
    frames ++ framesOf (.message (.binary bytes) :: arrivals) =
      frames ++ [bytes] ++ framesOf arrivals := by
  simp [framesOf, Arrival.frame?]

/-- An upload that waits for frames has not got all of them. -/
theorem Staged.length_lt (hstaged : Staged env server session revision frames peer)
    (hpermitting : Permitting env server session revision) :
    frames.length < revision.pieces.toNat := by
  obtain ⟨p, -, -, -, hpermitted⟩ := hstaged.pending
  have hshort := (hpermitted hpermitting).2
  omega

/-- Where the connection ends without a frame, it has been disturbed or something is in the way. -/
theorem outcome_of_ended {arrival : Arrival} {arrivals : List Arrival} {taken : List Blob}
    {deeds : List (Deed World Frame)} {exit : Option Label}
    (hstaged : Staged env server session revision frames peer)
    (htext : arrival.isText = false) (hframe : arrival.frame? = none)
    (hstretch : Stretch env (arrived server peer arrival) deeds exit)
    (hexit : ∀ peer', exit ≠ some (.loop peer')) :
    UploadOutcome env server session revision
      (Undisturbed session.vault (revision.pieces.toNat - frames.length) (arrival :: arrivals))
      taken (changes deeds) := by
  obtain ⟨hidles, hended⟩ : Passes env server peer arrival (changes deeds) exit :=
    (yields_other htext hframe).stretch hstretch
  rw [hidles.1]
  refine .nothing fun hpermitting hcalm => ?_
  have hstays := hcalm.head (Nat.sub_pos_of_lt (hstaged.length_lt hpermitting))
  obtain ⟨p, hpending, -⟩ := hstaged.pending
  cases exit with
  | none =>
    rw [← hstaged.session_eq, hended rfl (hstaged.session_eq ▸ hpermitting.toClear)
      (by rw [hpending]; rfl)] at hstays
    cases hstays
  | some label => exact absurd (congrArg some (hidles.2 label rfl)) (hexit peer)

/-- The loop over the arrivals, from frames that are staged already. -/
theorem outcome_of_receives (hawaits : AwaitsBytes revision) {arrivals : List Arrival}
    {deeds : List (Deed World Frame)} (h : Receives env server peer arrivals deeds)
    (hstaged : Staged env server session revision frames peer)
    (htext : ∀ arrival ∈ arrivals, arrival.isText = false) :
    UploadOutcome env server session revision
      (Undisturbed session.vault (revision.pieces.toNat - frames.length) arrivals)
      ((frames ++ framesOf arrivals).take revision.pieces.toNat) (changes deeds) := by
  induction h generalizing frames with
  | nil peer =>
    refine .nothing fun hpermitting _ hfits => ?_
    have hshort := hstaged.length_lt hpermitting
    have hlength := hfits.1
    simp only [framesOf, List.filterMap_nil, List.append_nil, List.length_take] at hlength
    omega
  | @more peer peer' arrival arrivals deeds deeds' hthrough hrest ih =>
    have htext' : ∀ arrival ∈ arrivals, arrival.isText = false :=
      fun arrival harrival => htext arrival (List.mem_cons_of_mem _ harrival)
    rw [changes_append]
    cases hframe : arrival.frame? with
    | none =>
      have hstep := Idles.through ((yields_other (htext _ List.mem_cons_self) hframe).mono
        fun _ _ hpasses => hpasses.1) hthrough
      cases hstep.2 _ rfl
      have hframes : framesOf (arrival :: arrivals) = framesOf arrivals := by
        simp [framesOf, hframe]
      rw [hstep.1, hframes, List.nil_append]
      refine (ih hstaged htext').mono fun hcalm => ?_
      simpa [framesOf, hframe] using hcalm.tail
    | some bytes =>
      obtain rfl := Arrival.eq_binary hframe
      have hstep := FrameDone.through (yields_binary hawaits hstaged bytes) hthrough
      rw [framesOf_binary]
      generalize changes deeds = seen at hstep
      cases hstep with
      | staged hstaged' =>
        rw [List.nil_append]
        refine (ih hstaged' htext').mono fun hcalm => ?_
        simpa [framesOf, Arrival.frame?, Nat.sub_sub] using hcalm.tail
      | failed hdenied hrests =>
        rw [changes_of_resting hrest hrests.of_loop htext']
        exact .nothing fun hpermitting => absurd hpermitting hdenied
      | stored hfits hstored hrests =>
        rw [changes_of_resting hrest hrests.of_loop htext', List.append_nil]
        exact .of_fits hfits hstored _
  | @last peer arrival arrivals deeds exit hstretch hexit =>
    cases hframe : arrival.frame? with
    | none => exact outcome_of_ended hstaged (htext _ List.mem_cons_self) hframe hstretch hexit
    | some bytes =>
      obtain rfl := Arrival.eq_binary hframe
      have hstep : FrameDone env server session revision (frames ++ [bytes]) (changes deeds)
          exit := (yields_binary hawaits hstaged bytes).stretch hstretch
      rw [framesOf_binary]
      generalize changes deeds = seen at hstep
      cases hstep with
      | refused hno => exact .nothing fun hpermitting _ => hno hpermitting _
      | staged _ => exact absurd rfl (hexit _)
      | failed hdenied _ => exact .nothing fun hpermitting => absurd hpermitting hdenied
      | stored hfits hstored _ => exact .of_fits hfits hstored _

end

end DataPlane

end Blackglass
