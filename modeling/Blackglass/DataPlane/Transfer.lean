import Blackglass.DataPlane.Upload
import Blackglass.Publication
import Blackglass.Revisions.Uids
import Mathlib.Logic.Relation

/-!
# Uploads and pulls

What is uploaded comes back: an upload stores the bytes of its frames, cut as the client liked,
and a pull sends them again, cut into pieces of 2 MiB.  Between the pieces of a pull other tasks
change the database; a `uid` keeps naming the same revision with the same bytes, or none, so that
all pieces are of one content.
-/

namespace Blackglass

open Outcome Rows Transition

/-! ## Pieces -/

/-- `REVISION_PIECE_SIZE`, as a number of bytes. -/
def pieceLength : Nat := revisionPieceSize.toNat

/-- The bytes of a content from the `i`-th multiple of 2 MiB on. -/
def pieceAt (bytes : Blob) (i : Nat) : Blob := (bytes.drop (i * pieceLength)).take pieceLength

theorem pieceLength_eq : (pieceLength : Int) = revisionPieceSize := by decide

section

variable {bytes : Blob} {n : Nat}

theorem flatten_pieces (bytes : Blob) (n : Nat) :
    ((List.range n).map (pieceAt bytes)).flatten = bytes.take (n * pieceLength) := by
  induction n with
  | zero => simp
  | succ n ih =>
    rw [List.range_succ, List.map_append, List.flatten_append, ih, Nat.succ_mul, List.take_add]
    simp [pieceAt]

/-- What a pull asks for at an offset is the piece there. -/
theorem take_drop_eq_pieceAt (n : Nat) :
    (bytes.drop ((n : Int) * pieceLength).toNat).take
      (min ((bytes.length : Int) - n * pieceLength) revisionPieceSize).toNat = pieceAt bytes n := by
  have hoffset : ((n : Int) * pieceLength).toNat = n * pieceLength := by omega
  rw [hoffset, pieceAt, ← pieceLength_eq, List.take_eq_take_iff, List.length_drop]
  omega

/-- All pieces but the last are full. -/
theorem length_pieceAt (hn : n * pieceLength ≤ bytes.length) {i : Nat} (hi : i < n) :
    (pieceAt bytes i).length = pieceLength := by
  have hle : (i + 1) * pieceLength ≤ n * pieceLength := Nat.mul_le_mul_right _ hi
  rw [Nat.succ_mul] at hle
  rw [pieceAt, List.length_take, List.length_drop]
  omega

end

/-! ## One content for each uid -/

/-- A change of the database: a request, or something that leaves the revisions alone. -/
def Store.Changes (s s' : Store) : Prop :=
  (∃ action, s.Step action s') ∨
    (s'.db.revisions = s.db.revisions ∧ s'.db.revisionContent = s.db.revisionContent ∧
      s'.db.lastRevisionUid = s.db.lastRevisionUid)

/-- What other tasks may have done to the database in the meantime. -/
def Store.Evolves : Store → Store → Prop := Relation.ReflTransGen Store.Changes

theorem Store.Evolves.revisionsAdvance {s s' : Store} (h : s.Evolves s') :
    RevisionsAdvance s.db s'.db := by
  induction h with
  | refl => exact .refl _
  | tail _ hchange ih =>
    refine ih.trans ?_
    rcases hchange with ⟨action, hstep⟩ | ⟨hrevisions, hcontent, hlast⟩
    · cases hstep with
      | commit hok => exact (execute_ok hok).revisionsAdvance (Store.constraints _)
      | rollback _ => exact .refl _
    · exact .frame hrevisions hcontent hlast

/-- No revision is ahead of the sequence. -/
theorem RevisionTracking.uid_le {db : Database} (h : RevisionTracking db) (hc : Constraints db)
    {r : RevisionRow} (hr : r ∈ db.revisions) : r.uid ≤ db.lastRevisionUid := by
  obtain ⟨v, hv, hid⟩ := hasVault_iff.mp (hc.revisionVault r hr)
  obtain ⟨-, huid, hseq⟩ := h.highWater v hv
  exact (huid r hr hid.symm).trans hseq

/-- A chunk of a content is a part of the bytes that are stored for the revision. -/
theorem contentChunk_ok {db : Database} (hc : Constraints db) {uid offset length : Int}
    {chunk : Blob} (h : db.contentChunk uid offset length = .ok chunk) :
    ∃ r ∈ db.revisions, r.uid = uid ∧ ∃ bytes, db.blobsOf r = [bytes] ∧
      (bytes.length : Int) = r.size ∧ chunk = (bytes.drop offset.toNat).take length.toNat := by
  simp only [Database.contentChunk, bind_eq_ok, rejectIf_eq_ok, orReject_eq_ok, exists_unit,
    pure_eq_ok, not_not] at h
  obtain ⟨-, -, r, hr, -, hone, hlength, rfl⟩ := h
  have hmem := List.mem_of_find?_eq_some hr
  have huid : r.uid = uid := by simpa using List.find?_some hr
  refine ⟨r, hmem, huid, ?_⟩
  subst huid
  have hblobs : db.blobsOf r = r.content.toList ++ (db.content? r.uid).toList.map (·.content) := by
    rw [Database.blobsOf, filter_key_eq_toList hc.contentUid]
    rfl
  rw [hblobs]
  cases hcontent : db.content? r.uid with
  | none =>
    cases hinline : r.content with
    | none => simp [hcontent, hinline] at hone
    | some bytes =>
      simp only [hcontent, hinline] at hlength ⊢
      exact ⟨bytes, rfl, hlength, rfl⟩
  | some c =>
    cases hinline : r.content with
    | some bytes => simp [hcontent, hinline] at hone
    | none =>
      simp only [hcontent, hinline] at hlength ⊢
      exact ⟨c.content, rfl, hlength, rfl⟩

/-- Bytes that are stored for a revision are found. -/
theorem hasContent_of_blobsOf {db : Database} (hc : Constraints db) {r : RevisionRow} {bytes : Blob}
    (h : db.blobsOf r = [bytes]) : (r.content.isSome || (db.content? r.uid).isSome) = true := by
  rw [Database.blobsOf, filter_key_eq_toList hc.contentUid] at h
  unfold Database.content?
  cases hinline : r.content with
  | some _ => rfl
  | none =>
    cases hcontent : db.revisionContent.find? fun c => c.uid = r.uid with
    | some _ => rfl
    | none => simp [hinline, hcontent] at h

namespace DataPlane

open Task

/-! ## Pulls -/

/-- The observer of what a pull sends. -/
def transferred? : Deed World Frame → Option Frame
  | .sent (.pullHeader size pieces deleted hash) => some (.pullHeader size pieces deleted hash)
  | .sent (.piece bytes) => some (.piece bytes)
  | _ => none

theorem overlooks_transferred? : Overlooks transferred? := ⟨fun _ _ _ => rfl, fun _ _ => rfl⟩

/-- The revision is there as it was, with its bytes, or not at all. -/
def Keeps (r : RevisionRow) (bytes : Blob) (w : World) : Prop :=
  ∀ r' ∈ w.store.db.revisions, r'.uid = r.uid → r' = r ∧ w.store.db.blobsOf r' = [bytes]

/-- There is more to send. -/
def Label.Unsent (label : Label) : Prop :=
  ∃ peer uid offset size, label = .pieces peer uid offset size ∧ offset < size

/-- The header of a pull and the first `n` pieces. -/
def transfer (r : RevisionRow) (bytes : Blob) (n : Nat) : List Frame :=
  .pullHeader r.size r.pieces false r.hash ::
    (List.range n).map fun i => .piece (pieceAt bytes i)

theorem transfer_succ (r : RevisionRow) (bytes : Blob) (n : Nat) :
    transfer r bytes (n + 1) = transfer r bytes n ++ [.piece (pieceAt bytes n)] := by
  simp [transfer, List.range_succ]

/-- Where a pull has come to: nothing was sent, or the header and some pieces, none of them
empty. -/
inductive Pulled (r : RevisionRow) (bytes : Blob) (peer : Peer) :
    List Frame → Option Label → Prop where
  | nothing {exit : Option Label} : (∀ label ∈ exit, label = .loop peer) →
      Pulled r bytes peer [] exit
  | pieces {n : Nat} {exit : Option Label} : ((n : Int) - 1) * pieceLength < r.size →
      (∀ label ∈ exit, label = .loop peer ∨
        label = .pieces peer r.uid (min (n * pieceLength) r.size) r.size) →
      Pulled r bytes peer (transfer r bytes n) exit

section

variable {env : Surroundings World Input} {server : Server} {peer : Peer} {r : RevisionRow}
  {bytes : Blob}

/-- One turn of the loop of a pull. -/
theorem yields_pullPieces (hkeeps : ∀ w, env.store w → Keeps r bytes w) {n : Nat}
    (hmore : (n : Int) * pieceLength < r.size) :
    (pullPieces server peer r.uid (min (n * pieceLength) r.size) r.size).Yields env transferred?
      fun seen => Pulled r bytes peer (transfer r bytes n ++ seen) := by
  have hobs := overlooks_transferred?
  have hoffset : min ((n : Int) * pieceLength) r.size = n * pieceLength := min_eq_left hmore.le
  have hstays : ∀ exit : Option Label, (∀ label ∈ exit, label = .loop peer) →
      Pulled r bytes peer (transfer r bytes n ++ []) exit := by
    intro exit hexit
    rw [List.append_nil]
    refine .pieces ?_ fun label hlabel => .inl (hexit label hlabel)
    have hpos : (0 : Int) < pieceLength := by decide
    nlinarith
  have hnone : Pulled r bytes peer (transfer r bytes n ++ []) none :=
    hstays none fun _ h => nomatch h
  have hloop : Pulled r bytes peer (transfer r bytes n ++ []) (some (.loop peer)) := by
    refine hstays _ ?_
    rintro _ ⟨⟩
    rfl
  have hfail : ¬Clear env server peer.session →
      Pulled r bytes peer (transfer r bytes n ++ []) none := fun _ => hnone
  have hshut : ¬Clear env server peer.session →
      Pulled r bytes peer (transfer r bytes n ++ []) none ∧
        Pulled r bytes peer (transfer r bytes n ++ []) (some (.loop peer)) :=
    fun _ => ⟨hnone, hloop⟩
  rw [hoffset]
  unfold pullPieces
  rw [if_pos hmore]
  refine yields_unlessShuttingDown hshut <| yields_check hobs hfail <|
    yields_unlessShuttingDown hshut <| .unseen (fun _ => hnone) (fun _ => rfl) fun w hw => ?_
  simp only
  split
  · exact .stop hnone
  · rename_i chunk hchunk
    obtain ⟨r', hr', huid, bytes', hblobs, hlength, rfl⟩ :=
      contentChunk_ok w.store.constraints hchunk
    obtain ⟨rfl, hsame⟩ := hkeeps w hw r' hr' huid
    obtain rfl : bytes' = bytes := by simpa using hblobs.symm.trans hsame
    rw [← hlength, take_drop_eq_pieceAt, hlength]
    have hsent : ∀ exit : Option Label, (∀ label ∈ exit, label = .pieces peer r'.uid
          (min (((n + 1 : Nat) : Int) * pieceLength) r'.size) r'.size) →
        Pulled r' bytes' peer (transfer r' bytes' n ++ ([.piece (pieceAt bytes' n)] ++ []))
          exit := by
      intro exit hexit
      rw [List.append_nil, ← transfer_succ]
      refine .pieces ?_ fun label hlabel => .inr (hexit label hlabel)
      push_cast
      rwa [add_sub_cancel_right]
    have hcut := hsent none fun _ h => nomatch h
    have hnext : (n : Int) * pieceLength + min (r'.size - n * pieceLength) revisionPieceSize =
        min (((n + 1 : Nat) : Int) * pieceLength) r'.size := by
      rw [← pieceLength_eq, Nat.cast_succ, add_mul, one_mul]
      omega
    refine yields_check hobs hfail <| .send (fun _ => hnone) <|
      yields_renewActiveSession hobs (fun _ => hcut) <| .goto (fun _ => hcut) <| hsent _ ?_
    rintro _ ⟨⟩
    rw [hnext]

/-- The answer to a pull of a revision that has content begins with its header. -/
theorem yields_pull {v : Json.Value} (server : Server)
    (huid : (v.get "uid").bind Json.Value.asI64 = some r.uid)
    (hfile : r.folder = false ∧ r.deleted = false) (hsize : 0 < r.size)
    (hkeeps : ∀ w, env.store w → Keeps r bytes w) :
    (pull peer v).Yields env transferred? (Pulled r bytes peer) := by
  have hobs := overlooks_transferred?
  have hnone : Pulled r bytes peer [] none := .nothing fun _ h => nomatch h
  have herr : ∀ message, (reply peer (.err message)).Yields env transferred?
      (Pulled r bytes peer) := by
    refine fun message => .sendUnseen (fun _ => hnone) rfl (.goto (fun _ => hnone) (.nothing ?_))
    rintro _ ⟨⟩
    rfl
  unfold pull
  rw [huid]
  refine .unseen (fun _ => hnone) (fun _ => rfl) fun w hw => ?_
  cases hinfo : w.store.db.pullInfo r.uid with
  | none => exact herr _
  | some info =>
    obtain ⟨r', hr', rfl⟩ := Option.map_eq_some_iff.mp hinfo
    have hmem := List.mem_of_find?_eq_some hr'
    obtain ⟨rfl, hblobs⟩ := hkeeps w hw r' hmem (by simpa using List.find?_some hr')
    have hcontent := hasContent_of_blobsOf w.store.constraints hblobs
    unfold pullAnswer
    simp only
    split
    · have hstarted : ∀ exit : Option Label,
          (∀ label ∈ exit, label = .pieces peer r'.uid 0 r'.size) →
          Pulled r' bytes peer ([.pullHeader r'.size r'.pieces false r'.hash] ++ []) exit := by
        intro exit hexit
        refine .pieces (n := 0) ?_ fun label hlabel => .inr ?_
        · have hlength : (0 : Int) < pieceLength := by decide
          simp only [Nat.cast_zero, zero_sub, neg_mul, one_mul]
          omega
        · rw [hexit label hlabel, Nat.cast_zero, zero_mul, min_eq_left hsize.le]
      have hcut := hstarted none fun _ h => nomatch h
      have hfail : ¬Clear env server peer.session → Pulled r' bytes peer [] none := fun _ => hnone
      refine yields_check hobs hfail ?_
      simp only [hfile.1, hfile.2, hcontent, Bool.or_self, Bool.not_true, Bool.false_eq_true,
        if_false]
      refine .send (fun _ => hnone) (.goto (fun _ => hcut) (hstarted _ ?_))
      rintro _ ⟨⟩
      rfl
    · exact herr _

/-- What a complete pull of a revision has sent. -/
def Delivered (r : RevisionRow) (bytes : Blob) (frames : List Frame) : Prop :=
  ∃ pieces : List Blob,
    frames = .pullHeader r.size r.pieces false r.hash :: pieces.map .piece ∧
      (pieces.length : Int) = r.pieces ∧
      (∀ piece ∈ pieces.dropLast, (piece.length : Int) = revisionPieceSize) ∧
      (∀ piece ∈ pieces, (piece.length : Int) ≤ revisionPieceSize) ∧
      pieces.flatten = bytes ∧ (bytes.length : Int) = r.size

theorem delivered_transfer {n : Nat} (hsize : (bytes.length : Int) = r.size)
    (hpieces : r.pieces = piecesOf r.size) (hn : ((n : Int) - 1) * pieceLength < r.size)
    (hall : r.size ≤ n * pieceLength) : Delivered r bytes (transfer r bytes n) := by
  have hlength := pieceLength_eq
  have hcount : (n : Int) = r.pieces := by
    have hbounds := piecesOf_bounds r.size
    rw [hpieces]
    rw [← hlength] at hbounds
    have hpos : (0 : Int) < pieceLength := by decide
    nlinarith
  refine ⟨(List.range n).map (pieceAt bytes), ?_, by simpa using hcount, ?_, ?_, ?_, hsize⟩
  · simp [transfer, Function.comp_def]
  · cases n with
    | zero => simp
    | succ m =>
      intro piece hpiece
      rw [List.range_succ, List.map_append, List.map_singleton, List.dropLast_concat] at hpiece
      obtain ⟨i, hi, rfl⟩ := List.mem_map.mp hpiece
      rw [length_pieceAt (n := m) ?_ (List.mem_range.mp hi), hlength]
      have hcast : ((m * pieceLength : Nat) : Int) = m * pieceLength := Nat.cast_mul _ _
      rw [Nat.cast_succ, add_sub_cancel_right] at hn
      omega
  · intro piece hpiece
    obtain ⟨i, -, rfl⟩ := List.mem_map.mp hpiece
    rw [← hlength, pieceAt, List.length_take]
    omega
  · rw [flatten_pieces, List.take_of_length_le]
    have hcast : ((n * pieceLength : Nat) : Int) = n * pieceLength := Nat.cast_mul _ _
    omega

/-- A pull that comes to the end of its loop has sent everything. -/
theorem delivered_of_pull {v : Json.Value} (huid : (v.get "uid").bind Json.Value.asI64 = some r.uid)
    (hshaped : r.Shaped) (hsize : 0 < r.size) (hlength : (bytes.length : Int) = r.size)
    (hkeeps : ∀ w, env.store w → Keeps r bytes w) {deeds : List (Deed World Frame)}
    {peer' : Peer} {uid offset size : Int}
    (h : Through env (body server) Label.Unsent (pull peer v) deeds
      (some (.pieces peer' uid offset size))) :
    Delivered r bytes (deeds.filterMap transferred?) := by
  obtain ⟨-, hpieces, hempty⟩ := hshaped
  have hfile : r.folder = false ∧ r.deleted = false := by
    refine ⟨Bool.eq_false_iff.mpr fun hfolder => ?_, Bool.eq_false_iff.mpr fun hdeleted => ?_⟩
    · exact hsize.ne' (hempty (.inl hfolder))
    · exact hsize.ne' (hempty (.inr hdeleted))
  have hstart : (pull peer v).Yields env transferred? (Pulled r bytes peer) :=
    yields_pull server huid hfile hsize hkeeps
  have hpulled := h.invariant hstart fun seen label hinner hpulled => by
    obtain ⟨_, _, _, _, rfl, hmore⟩ := hinner
    cases hpulled with
    | nothing hexit => cases hexit _ rfl
    | pieces hn hexit =>
      obtain hloop | hlabel := hexit _ rfl
      · cases hloop
      · cases hlabel
        exact yields_pullPieces hkeeps (by simpa using hmore)
  have hend := h.not_inner _ rfl
  generalize deeds.filterMap transferred? = seen at hpulled
  cases hpulled with
  | nothing hexit => cases hexit _ rfl
  | pieces hn hexit =>
    obtain hloop | hlabel := hexit _ rfl
    · cases hloop
    · cases hlabel
      refine delivered_transfer hlength hpieces hn (not_lt.mp fun hmore => hend ?_)
      exact ⟨_, _, _, _, rfl, by simpa using hmore⟩

end

/-! ## Pushes -/

section

variable {env : Surroundings World Input} {server : Server} {peer : Peer} {v : Json.Value}
  {revision : NewRevision}

/-- A push that announces bytes stores nothing yet. -/
theorem yields_push
    (hpush : beginPush server.config { peer.session with pending := peer.pending.isSome } v =
      .ok revision) (hawaits : AwaitsBytes revision) :
    (push server peer v).Yields env revisionChange? fun seen exit => seen = [] ∧
      ∀ label ∈ exit, label = .loop peer ∨
        ∃ hown, label = .loop (peer.awaiting ⟨revision, 0, 0, []⟩ hown) := by
  have hnone : ([] : List (World × World)) = [] ∧ ∀ label ∈ (none : Option Label),
      label = .loop peer ∨ ∃ hown, label = .loop (peer.awaiting ⟨revision, 0, 0, []⟩ hown) :=
    ⟨rfl, fun _ h => nomatch h⟩
  have herr : ∀ message, (reply peer (.err message)).Yields env revisionChange? fun seen exit =>
      seen = [] ∧ ∀ label ∈ exit, label = .loop peer ∨
        ∃ hown, label = .loop (peer.awaiting ⟨revision, 0, 0, []⟩ hown) := by
    refine fun message => .sendUnseen (fun _ => hnone) rfl (.goto (fun _ => hnone) ⟨rfl, ?_⟩)
    rintro _ ⟨⟩
    exact .inl rfl
  unfold push
  split
  · rename_i herror
    cases herror.symm.trans hpush
  · rename_i accepted haccepted
    obtain rfl := Except.ok.inj (haccepted.symm.trans hpush)
    have hbytes :
        (accepted.folder || accepted.deleted || decide (accepted.pieces = 0)) = false := by
      have hpos := piecesOf_bounds accepted.size
      have hsize := hawaits.size
      have hpieces : accepted.pieces ≠ 0 := by
        rw [hawaits.pieces]
        intro hzero
        rw [hzero] at hpos
        omega
      simp [hawaits.folder, hawaits.deleted, hpieces]
    rw [hbytes, if_neg Bool.false_ne_true]
    refine .input (fun _ => hnone) fun _ _ => .input (fun _ => hnone) fun _ _ =>
      .input (fun _ => hnone) fun _ _ => ?_
    split
    · exact herr _
    split
    · exact herr _
    split
    · exact herr _
    refine .sendUnseen (fun _ => hnone) rfl (.goto (fun _ => hnone) ⟨rfl, ?_⟩)
    rintro _ ⟨⟩
    have hown := beginPush_own hpush
    exact .inr ⟨hown, rfl⟩

/-- The connection that has answered `next` to a push waits for its first frame. -/
theorem staged_of_push
    (hpush : beginPush server.config { peer.session with pending := peer.pending.isSome } v =
      .ok revision) (hawaits : AwaitsBytes revision) {deeds : List (Deed World Frame)}
    {peer' : Peer} (h : Stretch env (push server peer v) deeds (some (.loop peer')))
    (hnext : peer'.pending.isSome = true) :
    changes deeds = [] ∧ Staged env server peer.session revision [] peer' := by
  obtain ⟨hnone, hexit⟩ := (yields_push hpush hawaits).stretch h
  refine ⟨hnone, ?_⟩
  obtain hloop | ⟨hown, hloop⟩ := hexit _ rfl
  · cases hloop
    rw [hnext] at hpush
    cases (beginPush_ok hpush).1
  · cases hloop
    refine ⟨rfl, ⟨_, rfl, rfl, ⟨rfl, rfl, Nat.le_refl _, fun _ => rfl⟩, fun _ => ⟨rfl, ?_⟩⟩,
      fun _ h => nomatch h⟩
    have hpos := piecesOf_bounds revision.size
    have hsize := hawaits.size
    rw [hawaits.pieces, List.length_nil, Nat.cast_zero]
    unfold revisionPieceSize at hpos
    omega

end

/-- What an upload of a revision stores: nothing, or just one revision that has the bytes of the
first frames, as many as announced, and they fit; and just when they fit if nothing is in the
way and nothing ends the connection before they are there. -/
structure UploadLaw (env : Surroundings World Input) (server : Server) (session : Session)
    (revision : NewRevision) (arrivals : List Arrival) (deeds : List (Deed World Frame)) :
    Prop where
  stored : changes deeds = [] ∨ ∃ change, changes deeds = [change] ∧
    Fits revision ((framesOf arrivals).take revision.pieces.toNat) ∧
    Stored revision ((framesOf arrivals).take revision.pieces.toNat).flatten change
  stored_iff : Permitting env server session revision →
    Undisturbed session.vault revision.pieces.toNat arrivals →
    ((∃ change, changes deeds = [change]) ↔
      Fits revision ((framesOf arrivals).take revision.pieces.toNat))

theorem UploadOutcome.uploadLaw {env : Surroundings World Input} {server : Server}
    {session : Session} {revision : NewRevision} {arrivals : List Arrival}
    {deeds : List (Deed World Frame)}
    (h : UploadOutcome env server session revision
      (Undisturbed session.vault revision.pieces.toNat arrivals)
      ((framesOf arrivals).take revision.pieces.toNat) (changes deeds)) :
    UploadLaw env server session revision arrivals deeds := by
  generalize hseen : changes deeds = seen at h
  cases h with
  | nothing hno =>
    refine ⟨.inl hseen, fun hpermitting hcalm => ⟨?_, fun hfits => ?_⟩⟩
    · rintro ⟨change, hchange⟩
      cases hseen.symm.trans hchange
    · exact absurd hfits (hno hpermitting hcalm)
  | one hfits hstored =>
    exact ⟨.inr ⟨_, hseen, hfits, hstored⟩, fun _ _ => ⟨fun _ => hfits, fun _ => ⟨_, hseen⟩⟩⟩

/-- Uploads: after an accepted push that announces bytes, whatever arrives except for text, at
most one revision is stored, with the concatenation of the announced number of frames, and it is
stored just when these fit, where nothing is in the way of the connection and its commit.  Pulls:
of a revision with bytes in a database that goes back to a verified one, a pull that comes to its
end has sent these bytes, whatever has been done to the database in the meantime, in the
announced number of pieces, all of 2 MiB except for the last. -/
theorem transfers_round_trip :
    (∀ (env : Surroundings World Input) (server : Server) (peer peer' : Peer) (v : Json.Value)
      (revision : NewRevision) (before deeds : List (Deed World Frame)) (arrivals : List Arrival),
      beginPush server.config { peer.session with pending := peer.pending.isSome } v =
        .ok revision →
      revision.folder = false → revision.deleted = false → 0 < revision.size →
      Stretch env (push server peer v) before (some (.loop peer')) →
      peer'.pending.isSome = true →
      (∀ arrival ∈ arrivals, arrival.isText = false) →
      Receives env server peer' arrivals deeds →
      revision.pieces = piecesOf revision.size ∧ changes before = [] ∧
        UploadLaw env server peer.session revision arrivals deeds) ∧
    ∀ (phc : PhcParser) (s₀ s : Store) (now : Int) (operations : List Operation)
      (r : RevisionRow) (bytes : Blob) (env : Surroundings World Input) (server : Server)
      (peer peer' : Peer) (v : Json.Value) (deeds : List (Deed World Frame))
      (uid offset size : Int),
      Database.verifyConnection phc s₀.db now = .ok () →
      Run (Store.Operate phc) s₀ operations s →
      r ∈ s.db.revisions → s.db.blobsOf r = [bytes] →
      (∀ w, env.store w → s.Evolves w.store) →
      (v.get "uid").bind Json.Value.asI64 = some r.uid →
      Through env (body server) Label.Unsent (pull peer v) deeds
        (some (.pieces peer' uid offset size)) →
      Delivered r bytes (deeds.filterMap transferred?) := by
  refine ⟨?_, ?_⟩
  · intro env server peer peer' v revision before deeds arrivals hpush hfolder hdeleted hsize hnext
      hpending htext hreceives
    have hawaits : AwaitsBytes revision :=
      ⟨hfolder, hdeleted, hsize, (beginPush_ok hpush).2.1.pieces⟩
    obtain ⟨hbefore, hstaged⟩ := staged_of_push hpush hawaits hnext hpending
    exact ⟨hawaits.pieces, hbefore, (outcome_of_receives hawaits hreceives hstaged htext).uploadLaw⟩
  · intro phc s₀ s now operations r bytes env server peer peer' v deeds uid offset size hverified
      hrun hr hblobs hevolves huid hpull
    have hstart : RevisionStore s₀.db :=
      (LogicalInvariants.of_verifyConnection hverified).revisionStore
    have hstore : RevisionStore s.db :=
      Run.invariant (I := fun s : Store => RevisionStore s.db) (fun h hop => hop.revisionStore h)
        hstart hrun
    obtain ⟨hempty, hone⟩ := blobsOf_of_contentValid s.constraints (hstore.content r hr)
    have hshaped := hstore.shaped r hr
    have hsize : 0 < r.size := lt_of_le_of_ne hshaped.1 fun hzero => by
      rw [hempty hzero.symm] at hblobs
      cases hblobs
    obtain ⟨bytes', hbytes', hlength⟩ := hone hsize
    cases hblobs.symm.trans hbytes'
    refine delivered_of_pull huid hshaped hsize hlength (fun w hw r' hr' huid' => ?_) hpull
    obtain ⟨hsame, hkept⟩ := (hevolves w hw).revisionsAdvance.kept s.constraints
      (fun r hr => hstore.uid_le s.constraints hr) hr hr' huid'
    exact ⟨hsame, hkept.trans hblobs⟩

deriving instance DecidableEq for Pending, Session, Peer, Label

/-! ## A note of two pieces -/

/-- The owner of the vault, connected. -/
def ownerPeer : Peer :=
  .authenticated 1 (Session.init someTokenHash 1 "vault" (.object [("device", .string "d")]))
    (by decide +kernel) (by decide)

def largeServer : Server := ⟨⟨"h", 4194304, 4194304, 4194304, fun _ => true⟩, 10, id⟩

/-- Everything at its best. -/
def bestInput : Input where
  arrival := .revalidation
  delivery := .closed
  now := 500
  later := 500
  granted := true
  shuttingDown := false
  reserved := 0
  reservedForOwner := 0

/-- The task runs alone. -/
def alone (s : Store) : Surroundings World Input :=
  ⟨fun i => i = bestInput, fun w => w = ⟨s, 500⟩, False⟩

/-- A frame of a little more than 1 MiB. -/
def halfNote : Blob := List.replicate 1048577 0

theorem length_halfNote : halfNote.length = 1048577 := List.length_replicate

def largeNote : Blob := halfNote ++ halfNote

theorem length_largeNote : (largeNote.length : Int) = 2097154 := by
  rw [largeNote, List.length_append, length_halfNote]
  rfl

def largeRevision : NewRevision :=
  { notePush false 2097154 2 with path := "a\"b", ctime := 1, mtime := 2 }

def pullMessage : Json.Value := .object [("op", .string "pull"), ("uid", .number (.int 1))]

theorem permitting_alone :
    Permitting (alone personalStore) largeServer ownerPeer.session largeRevision where
  kept := id
  granted := by
    rintro _ rfl
    rfl
  running := by
    rintro _ rfl
    rfl
  renewed := by
    rintro _ rfl
    decide +kernel
  commits := by
    rintro _ rfl
    have hauthorized : personalStore.db.authorizeMutation (some someTokenHash) 1 "vault" 500 =
        .ok () := by decide +kernel
    obtain ⟨hauth, haccess⟩ := authorizeMutation_ok.mp hauthorized
    exact ⟨⟨hauth, haccess, by decide +kernel, by decide +kernel⟩, rfl, by decide +kernel⟩

/-- The note as it arrives: its second frame after a tick, an event and a ping. -/
def largeArrivals : List Arrival :=
  [.message (.binary halfNote), .revalidation, .event (.invalidated "other"), .message (.ping []),
    .message (.binary halfNote)]

theorem undisturbed_largeArrivals :
    Undisturbed ownerPeer.session.vault largeRevision.pieces.toNat largeArrivals := by
  intro before arrival after hsplit _
  have hmem : arrival ∈ largeArrivals := hsplit ▸ List.mem_append_right _ List.mem_cons_self
  simp only [largeArrivals, List.mem_cons, List.not_mem_nil, or_false] at hmem
  rcases hmem with rfl | rfl | rfl | rfl | rfl <;> rfl

theorem frames_largeArrivals :
    (framesOf largeArrivals).take largeRevision.pieces.toNat = [halfNote, halfNote] := rfl

theorem flatten_halves : [halfNote, halfNote].flatten = largeNote := by simp [largeNote]

theorem fits_largeArrivals : Fits largeRevision [halfNote, halfNote] := by
  refine ⟨rfl, fun frame hframe => ?_, ?_⟩
  · have hhalf : frame = halfNote := by simpa using hframe
    rw [hhalf, length_halfNote]
    decide
  · rw [flatten_halves]
    exact length_largeNote

/-- The database after the upload, and the revision in it. -/
def largeDb : Database :=
  personalServer.commitRevision (largeRevision.toRow none 500) (some largeNote)

def largeRow : RevisionRow := { largeRevision.toRow none 500 with uid := 1 }

theorem execute_largeNote :
    (uploadRequest largeServer ownerPeer.session largeRevision largeNote).execute personalStore.db
      ⟨500, 500⟩ = .ok (.stored largeRow.toRevision, largeDb) :=
  execute_uploadRequest (permitting_alone.commits ⟨personalStore, 500⟩ rfl)
    ⟨rfl, rfl, by decide, by decide⟩ length_largeNote 500

theorem constraints_largeDb : Constraints largeDb :=
  (execute_ok execute_largeNote).constraints personalStore.constraints

def largeStore : Store := ⟨largeDb, constraints_largeDb⟩

theorem exit_unlessShuttingDown (peer : Peer) (k : Program) (w : World) :
    ((unlessShuttingDown peer k).play bestInput w).2 = (k.play bestInput w).2 := rfl

/-- Where the session is found, the checks and the renewals are passed. -/
theorem exit_check {peer : Peer} {reason : String} {k : Program} {s : Store}
    (h : s.db.validSessionForVault peer.session.tokenHash peer.session.vault 500 = true) :
    ((check peer reason k).play bestInput ⟨s, 500⟩).2 = (k.play bestInput ⟨s, 500⟩).2 := by
  simp [check, atTime, Code.read, Code.play, bestInput, h]

theorem exit_renewActiveSession {peer : Peer} {reason : String} {k : Program} {s : Store}
    (h : (s.db.renewSessionForVault peer.session.tokenHash peer.session.vault
      largeServer.sessionTtlSecs 500).1.isSome = true) :
    ((renewActiveSession largeServer peer reason k).play bestInput ⟨s, 500⟩).2 =
      (k.play bestInput ⟨s, 500⟩).2 := by
  simp [renewActiveSession, atTime, Code.play, bestInput, h]

theorem valid_largeStore : largeStore.db.validSessionForVault ownerPeer.session.tokenHash
    ownerPeer.session.vault 500 = true := by decide +kernel

theorem renews_largeStore : (largeStore.db.renewSessionForVault ownerPeer.session.tokenHash
    ownerPeer.session.vault largeServer.sessionTtlSecs 500).1.isSome = true := by decide +kernel

theorem contentChunk_largeStore {offset length : Int} (hoffset : 0 ≤ offset)
    (hlength : 0 ≤ length ∧ length ≤ revisionPieceSize) (hend : offset + length ≤ 2097154) :
    largeStore.db.contentChunk 1 offset length =
      .ok ((largeNote.drop offset.toNat).take length.toNat) := by
  have hrow : largeStore.db.revision? 1 = some largeRow := by decide +kernel
  have hcontent : largeStore.db.content? 1 = some ⟨1, largeNote⟩ := rfl
  simp only [Database.contentChunk, bind_eq_ok, rejectIf_eq_ok, orReject_eq_ok, pure_eq_ok]
  refine ⟨(), by omega, (), by omega, largeRow, hrow, (), not_lt.mpr hend, (), ?_, (), ?_, ?_⟩
  · simp [hcontent, largeRow, NewRevision.toRow]
  · rw [hcontent, not_not]
    exact length_largeNote
  · simp [hcontent]

/-- One turn of the loop of the pull. -/
theorem exit_pullPieces {offset : Int} (length : Int) (hoffset : 0 ≤ offset)
    (hmore : offset < 2097154) (hlength : min (2097154 - offset) revisionPieceSize = length) :
    ((pullPieces largeServer ownerPeer 1 offset 2097154).play bestInput ⟨largeStore, 500⟩).2 =
      some (.pieces ownerPeer 1 (offset + length) 2097154) := by
  have hchunk := @contentChunk_largeStore offset length hoffset
    ⟨by unfold revisionPieceSize at hlength; omega, by omega⟩ (by omega)
  rw [pullPieces, if_pos hmore, exit_unlessShuttingDown, exit_check valid_largeStore,
    exit_unlessShuttingDown]
  simp only [Code.read, Code.play, hlength, hchunk]
  rw [exit_check valid_largeStore]
  simp only [Code.play]
  rw [exit_renewActiveSession renews_largeStore]
  rfl

/-- The note is uploaded in two frames, with other arrivals between them, and pulled in two
pieces. -/
theorem transfers_round_trip_of_note :
    (∃ deeds change, changes deeds = [change] ∧ Stored largeRevision largeNote change ∧
        Receives (alone personalStore) largeServer
          (ownerPeer.awaiting ⟨largeRevision, 0, 0, []⟩ ⟨rfl, rfl⟩) largeArrivals deeds) ∧
      ∃ deeds, Through (alone largeStore) (body largeServer) Label.Unsent
          (pull ownerPeer pullMessage) deeds (some (.pieces ownerPeer 1 2097154 2097154)) ∧
        Delivered largeRow largeNote (deeds.filterMap transferred?) := by
  constructor
  · have hpush : beginPush largeServer.config
        { ownerPeer.session with pending := ownerPeer.pending.isSome } (quotedPushOf 2097154 2) =
          .ok largeRevision := by decide +kernel
    have hexit : ((push largeServer ownerPeer (quotedPushOf 2097154 2)).play bestInput
        ⟨personalStore, 500⟩).2 =
          some (.loop (ownerPeer.awaiting ⟨largeRevision, 0, 0, []⟩ ⟨rfl, rfl⟩)) := by
      decide +kernel
    have hnext : Stretch (alone personalStore)
        (push largeServer ownerPeer (quotedPushOf 2097154 2)) _ _ := stretch_play rfl rfl _
    rw [hexit] at hnext
    obtain ⟨deeds, hreceives⟩ : ∃ deeds, Receives (alone personalStore) largeServer
        (ownerPeer.awaiting ⟨largeRevision, 0, 0, []⟩ ⟨rfl, rfl⟩) largeArrivals deeds :=
      exists_receives largeServer rfl rfl _ _
    have htext : ∀ arrival ∈ largeArrivals, arrival.isText = false := by
      simp [largeArrivals, Arrival.isText]
    obtain ⟨-, -, hlaw⟩ := transfers_round_trip.1 _ _ _ _ _ _ _ _ _ hpush rfl rfl (by decide) hnext
      rfl htext hreceives
    obtain ⟨hstored, hiff⟩ := hlaw
    rw [frames_largeArrivals, flatten_halves] at hstored
    rw [frames_largeArrivals] at hiff
    obtain ⟨change, hone⟩ := (hiff permitting_alone undisturbed_largeArrivals).mpr
      fits_largeArrivals
    obtain hnone | ⟨change', hone', -, hstored⟩ := hstored
    · cases hone.symm.trans hnone
    · exact ⟨deeds, change', hone', hstored, hreceives⟩
  · have hinit : Database.verifyConnection onePhc personalStore.db 500 = .ok () := by decide +kernel
    have hrun : Run (Store.Operate onePhc) personalStore
        [.request (uploadRequest largeServer ownerPeer.session largeRevision largeNote) ⟨500, 500⟩]
        largeStore := .cons (.request trivial (.commit execute_largeNote)) (.nil _)
    have hrow : largeRow ∈ largeStore.db.revisions := by decide +kernel
    have hblobs : largeStore.db.blobsOf largeRow = [largeNote] := rfl
    have hevolves : ∀ w, (alone largeStore).store w → largeStore.Evolves w.store := by
      rintro _ rfl
      exact .refl
    have hheader : Stretch (alone largeStore) (pull ownerPeer pullMessage) _ _ :=
      stretch_play rfl rfl _
    have hstarted : ((pull ownerPeer pullMessage).play bestInput ⟨largeStore, 500⟩).2 =
        some (.pieces ownerPeer 1 0 2097154) := by decide +kernel
    have hpiece : ∀ offset : Int, Stretch (alone largeStore)
        (pullPieces largeServer ownerPeer 1 offset 2097154) _ _ :=
      fun offset => stretch_play rfl rfl _
    have hfirst := hpiece 0
    have hsecond := hpiece 2097152
    rw [hstarted] at hheader
    rw [exit_pullPieces 2097152 (by decide) (by decide) (by decide)] at hfirst
    rw [exit_pullPieces 2 (by decide) (by decide) (by decide)] at hsecond
    have hpull : Through (alone largeStore) (body largeServer) Label.Unsent
        (pull ownerPeer pullMessage) _ (some (.pieces ownerPeer 1 2097154 2097154)) :=
      .enter hheader ⟨_, _, _, _, rfl, by decide⟩ <| .enter hfirst ⟨_, _, _, _, rfl, by decide⟩ <|
        .leave hsecond (by
          rintro _ ⟨⟩ ⟨_, _, _, _, hlabel, hmore⟩
          cases hlabel
          exact absurd hmore (by decide))
    exact ⟨_, hpull, transfers_round_trip.2 _ _ _ _ _ _ _ _ _ _ _ _ _ _ _ _ hinit hrun hrow hblobs
      hevolves rfl hpull⟩

end DataPlane

end Blackglass
