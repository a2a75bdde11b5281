import Blackglass.Handlers
import Blackglass.Quota.Usage
import Blackglass.Stream.System

/-!
# Every commit can be published

A revision is announced after it was committed, and a text of more than `maxEventBytes` is
not sent: a commit with such a text would never reach the connected clients.  The text is
measured three times.  A push is measured before it is committed, on a JSON object made for
it, with the longest numbers for what the database has not chosen yet; a restore within its
transaction, on the row it made; and every commit once more when it is published, after the
notice has become a JSON map.  A map keeps its members in another order than a record, which
changes the text and not its size.
-/

namespace Blackglass

open Json Outcome Transition

/-! ## The text that is sent -/

/-- `serde_json::to_string` of the notice as a JSON value. -/
def Revision.publishedText (r : Revision) : String := encodeMap r.toNotice.members

/-- `publish_committed`, up to the send. -/
def publishCommitted (r : Revision) : Except String Stream.Event := do
  rejectIf (maxEventBytes < r.publishedText.utf8ByteSize)
    "committed notice exceeds the bounded event size"
  return r.toEvent

theorem publishedText_utf8ByteSize (r : Revision) :
    r.publishedText.utf8ByteSize = r.toNotice.text.utf8ByteSize :=
  encodeMap_utf8ByteSize r.toNotice.members

theorem publishCommitted_of_le {r : Revision} (h : r.toNotice.text.utf8ByteSize ≤ maxEventBytes) :
    publishCommitted r = .ok r.toEvent := by
  rw [← publishedText_utf8ByteSize] at h
  rw [publishCommitted, rejectIf, if_neg (not_lt.mpr h)]
  rfl

/-! ## Pushes -/

/-- The readings of the clock and the numbers of revisions that a notice has room for. -/
def Announceable (n : Int) : Prop := 0 ≤ n ∧ n ≤ 9223372036854775807

/-- The notice of a measured push, whatever numbers the database gives it. -/
theorem notice_le_of_measured {revision : NewRevision}
    (h : serializedNoticeSize revision ≤ maxEventBytes) {uid ts : Int} (huid : Announceable uid)
    (hts : Announceable ts) (content : Option Blob) :
    { revision.toRow content ts with uid := uid }.toRevision.toNotice.text.utf8ByteSize ≤
      maxEventBytes :=
  le_trans (text_le_serializedNoticeSize revision huid.1 huid.2 hts.1 hts.2) h

/-! ## Runs -/

/-- The metadata of a request that pushes has been let in. -/
def Request.LetIn (config : Config) : Request → Prop
  | .addEmptyRevision revision .. | .addFileRevision revision .. =>
    ∃ session v, beginPush config session v = .ok revision
  | _ => True

/-- Every stored revision has a notice that fits. -/
def Announced (db : Database) : Prop :=
  ∀ r ∈ db.revisions, 0 ≤ r.uid ∧ r.toRevision.toNotice.text.utf8ByteSize ≤ maxEventBytes

section

variable {config : Config} {db db' : Database} {t : Readings} {request : Request} {answer : Answer}

theorem Announced.announceable_next (h : Announced db)
    (hmax : db.nextRevisionUid ≤ maxJsSafeInteger) : Announceable db.nextRevisionUid := by
  have hnonneg : 0 ≤ Rows.maxOr0 (db.revisions.map (·.uid)) := by
    unfold Rows.maxOr0
    cases hm : (db.revisions.map (·.uid)).max? with
    | none => exact le_rfl
    | some m =>
      obtain ⟨r, hr, rfl⟩ := List.mem_map.mp (List.max?_mem hm)
      exact (h r hr).1
  have hsafe : maxJsSafeInteger ≤ 9223372036854775807 := by decide
  refine ⟨?_, hmax.trans hsafe⟩
  unfold Database.nextRevisionUid nextRowid
  omega

theorem Announced.commitRevision (h : Announced db) {row : RevisionRow} {content : Option Blob}
    (huid : Announceable db.nextRevisionUid)
    (hrow : { row with uid := db.nextRevisionUid }.toRevision.toNotice.text.utf8ByteSize ≤
      maxEventBytes) : Announced (db.commitRevision row content) := by
  intro r hr
  rw [commitRevision_revisions] at hr
  rcases List.mem_append.mp hr with hr | hr
  · exact h r hr
  · rw [List.mem_singleton.mp hr]
    exact ⟨huid.1, hrow⟩

theorem Announced.of_sublist (h : Announced db) (hsub : db'.revisions.Sublist db.revisions) :
    Announced db' := fun r hr => h r (hsub.subset hr)

/-- A request that adds no revision has none to announce. -/
theorem Effect.revision?_eq_none (he : Effect db t request answer db')
    (hadds : request.adds = false) : answer.revision? = none := by
  cases he with
  | addEmptyRevision | addFileRevision | restore => cases hadds
  | _ => rfl

/-- A request that was let in keeps every notice small, and so is that of what it has
committed. -/
theorem Effect.announced (he : Effect db t request answer db') (hc : Constraints db)
    (h : Announced db) (hlet : request.LetIn config) (hnow : Announceable t.now) :
    Announced db' ∧ ∀ r ∈ answer.revision?, r.toNotice.text.utf8ByteSize ≤ maxEventBytes := by
  cases hadds : request.adds with
  | false =>
    refine ⟨h.of_sublist (he.shrinks hc hadds).revisions, fun r hr => ?_⟩
    rw [he.revision?_eq_none hadds] at hr
    cases hr
  | true =>
    cases he with
    | addEmptyRevision hok =>
      obtain ⟨session, v, hpush⟩ := hlet
      obtain ⟨hchecked, -, -, -, rfl, rfl⟩ := addEmptyRevisionInternal_ok hok
      have huid := h.announceable_next hchecked.uid
      have hnotice := notice_le_of_measured (beginPush_ok hpush).2.2 huid hnow none
      exact ⟨h.commitRevision huid hnotice, fun r hr => Option.some.inj hr ▸ hnotice⟩
    | addFileRevision hok =>
      obtain ⟨session, v, hpush⟩ := hlet
      obtain ⟨hchecked, -, -, -, -, -, -, rfl, rfl⟩ := addFileRevisionInternal_ok hok
      have huid := h.announceable_next hchecked.uid
      have hnotice := notice_le_of_measured (beginPush_ok hpush).2.2 huid hnow none
      exact ⟨h.commitRevision huid hnotice, fun r hr => Option.some.inj hr ▸ hnotice⟩
    | restore hok =>
      obtain ⟨rfl, -, rfl⟩ | ⟨target, source, content, hr⟩ := restoreInternal_ok hc hok
      · exact ⟨h, fun r hr => nomatch hr⟩
      · have huid := h.announceable_next hr.checked.uid
        have hnotice := hr.notice _ hr.answer
        rw [hr.result]
        exact ⟨h.commitRevision huid hnotice, hr.notice⟩
    | _ => cases hadds

end

/-- A request that was let in, at a time that a notice has room for. -/
def ServedBy (config : Config) (_ : Store) (request : Request × Readings) : Prop :=
  request.1.LetIn config ∧ Announceable request.2.now

/-- The text of a push that is let in has at most `maxEventBytes`, for all numbers that the
database may give it; in every run of a server on a database that it has verified, whatever
is committed is published, and every stored revision passes the verifier's check of its
notice. -/
theorem committed_is_published {phc : PhcParser} {config : Config} {s s' : Store} {now : Int}
    {requests : List (Request × Readings)}
    (hinit : Database.verifyConnection phc s.db now = .ok ())
    (hrun : Run (Guarded (ServedBy config) Store.Step) s requests s') :
    (∀ session v revision, beginPush config session v = .ok revision →
      ∀ uid ts content, Announceable uid → Announceable ts →
        let stored := { revision.toRow content ts with uid := uid }.toRevision
        stored.publishedText.utf8ByteSize ≤ 32768 ∧ publishCommitted stored = .ok stored.toEvent) ∧
      (∀ request t answer s'', ServedBy config s' (request, t) →
        s'.execute request t = .ok (answer, s'') → ∀ r ∈ answer.revision?,
          r.publishedText.utf8ByteSize ≤ 32768 ∧ publishCommitted r = .ok r.toEvent) ∧
      ∀ r ∈ s'.db.revisions, r.toRevision.toNotice.text.utf8ByteSize ≤ maxEventBytes := by
  have hfirst : Announced s.db := fun r hr =>
    have hinv := LogicalInvariants.of_verifyConnection hinit
    ⟨by have := (hinv.revision r hr).1.1; omega, hinv.notice r hr⟩
  have hlast : Announced s'.db := by
    refine Run.invariant_of_guard (I := fun s : Store => Announced s.db)
      (fun {s _ _} h hserved hstep => ?_) hfirst hrun
    cases hstep with
    | commit hok => exact ((execute_ok hok).announced s.constraints h hserved.1 hserved.2).1
    | rollback _ => exact h
  have hpublished : ∀ {r : Revision}, r.toNotice.text.utf8ByteSize ≤ maxEventBytes →
      r.publishedText.utf8ByteSize ≤ 32768 ∧ publishCommitted r = .ok r.toEvent := by
    intro r hr
    exact ⟨(publishedText_utf8ByteSize r).trans_le hr, publishCommitted_of_le hr⟩
  refine ⟨fun session v revision hpush uid ts content huid hts => ?_,
    fun request t answer s'' hserved hok r hr => ?_, fun r hr => (hlast r hr).2⟩
  · exact hpublished (notice_le_of_measured (beginPush_ok hpush).2.2 huid hts content)
  · have heffect := Store.effect_of_execute hok
    exact hpublished ((heffect.announced s'.constraints hlast hserved.1 hserved.2).2 r hr)

/-- A note with a quotation mark in its name, as a client pushes it. -/
def quotedPushOf (size pieces : Int) : Value :=
  .object [("op", .string "push"), ("path", .string "a\"b"), ("extension", .string "md"),
    ("hash", .string "h"), ("ctime", .number (.int 1)), ("mtime", .number (.int 2)),
    ("folder", .bool false), ("deleted", .bool false), ("size", .number (.int size)),
    ("pieces", .number (.int pieces))]

def quotedPush : Value := quotedPushOf 3 1

/-- The note is pushed, and restored. -/
theorem committed_is_published_of_push :
    let config : Config := ⟨"h", 100, 10, 10, fun _ => true⟩
    let session := Session.init someTokenHash 1 "vault" (.object [("device", .string "d")])
    let revision : NewRevision := { notePush false 3 1 with path := "a\"b", ctime := 1, mtime := 2 }
    let stored := { revision.toRow none 500 with uid := 1 }.toRevision
    let push := Request.addFileRevision revision someTokenHash [1, 2, 3] 10 10
    let restore := Request.restore 1 someTokenHash "vault" 1 "d" 10 10
    let s' := (personalStore.next push ⟨500, 500⟩).next restore ⟨501, 501⟩
    beginPush config session quotedPush = .ok revision ∧
      s'.db.revisions.map (fun r => (r.uid, r.path)) = [(1, "a\"b"), (2, "a\"b")] ∧
      publishCommitted stored = .ok stored.toEvent ∧
      ∀ r ∈ s'.db.revisions, r.toRevision.toNotice.text.utf8ByteSize ≤ maxEventBytes := by
  intro config session revision stored push restore s'
  have hinit : Database.verifyConnection onePhc personalStore.db 500 = .ok () := by decide +kernel
  have hpush : beginPush config session quotedPush = .ok revision := by decide +kernel
  have hserved : ServedBy config personalStore (push, ⟨500, 500⟩) :=
    ⟨⟨session, quotedPush, hpush⟩, by decide, by decide⟩
  have hserved' : ServedBy config (personalStore.next push ⟨500, 500⟩) (restore, ⟨501, 501⟩) :=
    ⟨trivial, by decide, by decide⟩
  have hrun : Run (Guarded (ServedBy config) Store.Step) personalStore
      [(push, ⟨500, 500⟩), (restore, ⟨501, 501⟩)] s' :=
    .cons ⟨hserved, Store.step_next ..⟩ (.cons ⟨hserved', Store.step_next ..⟩ (.nil _))
  obtain ⟨hpublish, -, hstored⟩ := committed_is_published hinit hrun
  exact ⟨hpush, by decide +kernel, (hpublish session quotedPush revision hpush 1 500 none
    ⟨by decide, by decide⟩ ⟨by decide, by decide⟩).2, hstored⟩

end Blackglass
