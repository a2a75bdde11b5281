import Blackglass.Revisions.Restore
import Blackglass.Revisions.Purge
import Blackglass.DataPlane.Isolation
import Blackglass.DataPlane.Transfer

/-!
# The listing of deleted files

`deleted` reads the tombstones of a vault page by page and splices the text of each into one
response by hand, with a look at the bound before every item.  What it sends is the JSON text of
the whole listing, or an error if that text is too long.
-/

namespace Blackglass

open Json Rows

/-! ## What is to be listed -/

instance (db : Database) (r : RevisionRow) : Decidable (IsHead db r) := by
  unfold IsHead
  infer_instance

/-- A tombstone at the head of its path, over an earlier revision that is not one; a file that
has been renamed from that path hides it if renames are suppressed. -/
def DeletedHead (db : Database) (vault : String) (suppress : Bool) (r : RevisionRow) : Prop :=
  r.vaultId = vault ∧ IsHead db r ∧ r.deleted = true ∧
    (∃ prior ∈ db.revisions, prior.vaultId = vault ∧ prior.path = r.path ∧ prior.uid < r.uid ∧
      prior.deleted = false) ∧
    (suppress = true → ¬∃ live ∈ db.revisions, live.vaultId = vault ∧ IsHead db live ∧
      live.deleted = false ∧ live.relatedpath = some r.path)

instance (db : Database) (vault : String) (suppress : Bool) (r : RevisionRow) :
    Decidable (DeletedHead db vault suppress r) := by
  unfold DeletedHead
  infer_instance

/-- The listing, by increasing `uid`. -/
def Database.deletedItems (db : Database) (vault : String) (suppress : Bool) : List Revision :=
  sortedRevisions (db.revisions.filter fun r => DeletedHead db vault suppress r)

section Query

variable {db : Database} {vault : String} {suppress : Bool}

/-- A live file that was renamed from a path, found by the `uid`s of the heads. -/
theorem any_renamed_iff (hc : Constraints db) {path : String} :
    (db.revisions.any fun live => live.uid ∈ db.headUids vault && !live.deleted &&
        live.relatedpath = some path) = true ↔
      ∃ live ∈ db.revisions, live.vaultId = vault ∧ IsHead db live ∧ live.deleted = false ∧
        live.relatedpath = some path := by
  simp only [List.any_eq_true, Bool.and_eq_true, decide_eq_true_eq, Bool.not_eq_true']
  constructor
  · rintro ⟨live, hlive, ⟨hhead, hkept⟩, hrelated⟩
    obtain ⟨hvault, hhead⟩ := (mem_headUids_iff hc hlive).mp hhead
    exact ⟨live, hlive, hvault, hhead, hkept, hrelated⟩
  · rintro ⟨live, hlive, hvault, hhead, hkept, hrelated⟩
    exact ⟨live, hlive, ⟨(mem_headUids_iff hc hlive).mpr ⟨hvault, hhead⟩, hkept⟩, hrelated⟩

/-- The joins of `list_deleted_page` on the `uid` alone stay within the vault. -/
theorem listedAsDeleted_iff (hc : Constraints db) {r : RevisionRow} (hr : r ∈ db.revisions) :
    db.listedAsDeleted vault suppress r = true ↔ DeletedHead db vault suppress r := by
  simp only [Database.listedAsDeleted, Bool.and_eq_true, decide_eq_true_eq,
    mem_headUids_iff hc hr, DeletedHead]
  constructor
  · rintro ⟨⟨⟨⟨rfl, hhead⟩, hdeleted⟩, hprior⟩, hrenamed⟩
    refine ⟨rfl, hhead, hdeleted, ?_, fun hsuppress => ?_⟩
    · simpa [and_assoc] using hprior
    · rw [hsuppress, Bool.not_true, Bool.false_or, Bool.not_eq_true'] at hrenamed
      rw [← any_renamed_iff hc, hrenamed]
      exact Bool.false_ne_true
  · rintro ⟨rfl, hhead, hdeleted, hprior, hrenamed⟩
    refine ⟨⟨⟨⟨rfl, hhead⟩, hdeleted⟩, by simpa [and_assoc] using hprior⟩, ?_⟩
    cases suppress with
    | false => rfl
    | true =>
      rw [Bool.not_true, Bool.false_or, Bool.not_eq_true', ← Bool.not_eq_true, any_renamed_iff hc]
      exact hrenamed rfl

theorem mem_deletedItems {x : Revision} :
    x ∈ db.deletedItems vault suppress ↔
      ∃ r ∈ db.revisions, DeletedHead db vault suppress r ∧ r.toRevision = x := by
  simp [Database.deletedItems, mem_sortedRevisions, and_assoc]

theorem pairwise_deletedItems (hc : Constraints db) :
    (db.deletedItems vault suppress).Pairwise fun x y => x.uid < y.uid :=
  hc.pairwise_filter _

/-- A page is the next piece of the listing. -/
theorem listDeletedPage_eq_take (hc : Constraints db) {after : Int} (hafter : 0 ≤ after) :
    db.listDeletedPage vault suppress after DataPlane.deletedPageSize =
      ((db.deletedItems vault suppress).filter fun x => after < x.uid).take 64 := by
  rw [Database.listDeletedPage, pageByUid_eq, max_eq_left hafter]
  refine congrArg (List.take 64) (eq_of_sorted (hc.pairwise_filter _)
    ((pairwise_deletedItems hc).filter _) fun x => ?_)
  simp only [List.mem_filter, mem_sortedRevisions, mem_deletedItems, decide_eq_true_eq,
    Bool.and_eq_true]
  constructor
  · rintro ⟨r, ⟨hr, hlisted, hlt⟩, rfl⟩
    exact ⟨⟨r, hr, (listedAsDeleted_iff hc hr).mp hlisted, rfl⟩, hlt⟩
  · rintro ⟨⟨r, hr, hlisted, rfl⟩, hlt⟩
    exact ⟨r, ⟨hr, (listedAsDeleted_iff hc hr).mpr hlisted, hlt⟩, rfl⟩

/-- Whatever is listed can be restored: the newest live revision of its path is the source. -/
theorem exists_restoreSource (hc : Constraints db) {x : Revision}
    (hx : x ∈ db.deletedItems vault suppress) :
    ∃ target source,
      (db.revisions.find? fun r => r.uid = x.uid && r.vaultId = vault) = some target ∧
      db.restoreSource vault target = some source.uid ∧
      NewestLive db vault x.path x.uid source := by
  obtain ⟨r, hr, ⟨rfl, -, hdeleted, ⟨prior, hprior, hvault, hpath, hlt, hlive⟩, -⟩, rfl⟩ :=
    mem_deletedItems.mp hx
  have hfind : (db.revisions.find? fun s => s.uid = r.uid && s.vaultId = r.vaultId) = some r := by
    cases hfound : db.revisions.find? fun s => s.uid = r.uid && s.vaultId = r.vaultId with
    | none => simpa using List.find?_eq_none.mp hfound r hr
    | some s =>
      have hs := List.find?_some hfound
      simp only [Bool.and_eq_true, decide_eq_true_eq] at hs
      rw [hc.eq_of_revisionUid (List.mem_of_find?_eq_some hfound) hr hs.1]
  have hcandidate := mem_restoreCandidates.mpr
    ⟨prior, hprior, ⟨hvault, hpath, hlt, hlive⟩, rfl⟩
  have hsome : db.restoreSource r.vaultId r ≠ none := by
    rw [Database.restoreSource, if_pos hdeleted, Ne, List.max?_eq_none_iff]
    exact List.ne_nil_of_mem hcandidate
  obtain ⟨u, hu⟩ := Option.ne_none_iff_exists'.mp hsome
  have hchosen := hu
  rw [Database.restoreSource, if_pos hdeleted] at hchosen
  obtain ⟨source, hmem, ⟨hsvault, hspath, -, hslive⟩, rfl⟩ :=
    mem_restoreCandidates.mp (List.max?_mem hchosen)
  exact ⟨r, source, hfind, hu, newestLive_of_restoreSource hc hr hmem hsvault hspath hslive hu⟩

end Query

namespace DataPlane

open Task (Code)

/-! ## The text -/

/-- One item of the listing. -/
def itemText (r : Revision) : String := noticeItem r.toNotice

/-- `{"items": ..}`, as `serde_json` writes it. -/
def deletedText (items : List Revision) : String :=
  encodeMap [("items", encodeArray (items.map itemText))]

/-- The response while items are still to come. -/
def deletedPrefix (items : List Revision) : String :=
  "\x7b\"items\":[" ++ ",".intercalate (items.map itemText)

/-- The text of these items is within the bound. -/
def FitsResponse (items : List Revision) : Prop :=
  (deletedText items).utf8ByteSize ≤ maxLargeResponseBytes

instance (items : List Revision) : Decidable (FitsResponse items) :=
  inferInstanceAs (Decidable (_ ≤ _))

theorem deletedText_eq (items : List Revision) :
    deletedText items = deletedPrefix items ++ "]\x7d" := by
  have hmap : deletedText items =
    encodeObject [("items", encodeArray (items.map itemText))] := rfl
  have hkey : encodeString "items" = "\"items\"" := by decide
  have hopen : ("\x7b\"items\":[" : String) = "\x7b" ++ "\"items\"" ++ ":" ++ "[" := by decide
  have hclose : ("]\x7d" : String) = "]" ++ "\x7d" := by decide
  rw [hmap, deletedPrefix, hopen, hclose]
  simp only [encodeObject, encodeMembers, encodeArray, hkey, String.append_assoc]

theorem deletedPrefix_concat (items : List Revision) (r : Revision) :
    deletedPrefix (items ++ [r]) =
      deletedPrefix items ++ (if items.isEmpty then "" else ",") ++ itemText r := by
  rw [deletedPrefix, List.map_append, List.map_singleton, intercalate_concat, List.isEmpty_map]
  simp only [deletedPrefix, String.append_assoc]

theorem deletedText_utf8ByteSize (items : List Revision) :
    (deletedText items).utf8ByteSize = (deletedPrefix items).utf8ByteSize + 2 := by
  have hclose : ("]\x7d" : String).utf8ByteSize = 2 := rfl
  rw [deletedText_eq, String.utf8ByteSize_append, hclose]

/-- More items make a longer text. -/
theorem FitsResponse.of_append {items more : List Revision}
    (h : FitsResponse (items ++ more)) : FitsResponse items := by
  induction more generalizing items with
  | nil => simpa using h
  | cons r more ih =>
    have hone : FitsResponse (items ++ [r]) := ih (by simpa using h)
    unfold FitsResponse at hone ⊢
    rw [deletedText_utf8ByteSize] at hone ⊢
    rw [deletedPrefix_concat, String.utf8ByteSize_append, String.utf8ByteSize_append] at hone
    omega

/-- The bound is tested for the text as it would be if it ended after the item. -/
theorem appendItems_eq {done : List Revision} (page : List Revision) (h : FitsResponse done) :
    appendItems (deletedPrefix done) done.isEmpty page =
      if FitsResponse (done ++ page) then
        some (deletedPrefix (done ++ page), (done ++ page).isEmpty)
      else none := by
  induction page generalizing done with
  | nil => simp [appendItems, h]
  | cons r page ih =>
    have hsize : (deletedPrefix done).utf8ByteSize + (if done.isEmpty then 0 else 1) +
        (itemText r).utf8ByteSize + 2 = (deletedText (done ++ [r])).utf8ByteSize := by
      rw [deletedText_utf8ByteSize, deletedPrefix_concat, String.utf8ByteSize_append,
        String.utf8ByteSize_append]
      split <;> rfl
    have hlist : done ++ r :: page = (done ++ [r]) ++ page := by simp
    have htest : (maxLargeResponseBytes < (deletedPrefix done).utf8ByteSize +
        (if done.isEmpty then 0 else 1) + (noticeItem r.toNotice).utf8ByteSize + 2) ↔
          ¬FitsResponse (done ++ [r]) := by
      rw [FitsResponse, not_le, ← hsize]
      rfl
    rw [appendItems, hlist]
    simp only [htest]
    split
    · rename_i hlong
      rw [if_neg fun hfits => hlong (FitsResponse.of_append hfits)]
    · rename_i hfits
      have hfirst : false = (done ++ [r]).isEmpty := by simp
      rw [← ih (not_not.mp hfits), deletedPrefix_concat, ← hfirst]
      rfl

/-! ## The loop -/

def deletedTooLong : String :=
  "Deleted response exceeds the safe wire limit; ask the server operator " ++
    "to stop the service, run `blackglass-server purge-deleted <database> <vault-id> " ++
    "<backup>`, and retry"

/-- What is sent when the loop has come to its end: the session is checked at the reading of the
clock that comes with the input `i`. -/
def deletedFrames (peer : Peer) (db : Database) (i : Input) (items : List Revision) : List Frame :=
  if FitsResponse items then
    if i.granted && db.validSessionForVault peer.session.tokenHash peer.session.vault i.now then
      [.deleted (deletedText items)]
    else [.close 1008 "Authorization revoked"]
  else [.err deletedTooLong]

section Loop

variable {server : Server} {peer : Peer} {w : World} {inputs : Nat → Input} {suppress : Bool}

theorem sends_close (code : Nat) (reason : String) :
    Code.Sends (answering server) inputs w (close code reason) [.close code reason] :=
  .send .stop

theorem sends_reply (frame : Frame) :
    Code.Sends (answering server) inputs w (reply peer frame) [frame] :=
  .send (.goto .stop)

theorem sends_check {reason : String} {c : Program} {frames : List Frame}
    (h : Code.Sends (answering server) (fun j => inputs (j + 1)) { w with now := (inputs 0).now } c
      frames) :
    Code.Sends (answering server) inputs w (check peer reason c)
      (if (inputs 0).granted && w.store.db.validSessionForVault peer.session.tokenHash
          peer.session.vault (inputs 0).now then frames
        else [.close 1008 reason]) := by
  refine .input (.transact (.read ?_))
  dsimp only
  split
  · exact h
  · exact sends_close _ _

/-- The rows up to the last of a page, and those after it. -/
theorem sorted_split {xs ys : List Revision} {last : Revision}
    (hsorted : (xs ++ ys).Pairwise fun x y => x.uid < y.uid) (hlast : xs.getLast? = some last) :
    (∀ x ∈ xs, x.uid ≤ last.uid) ∧ ∀ y ∈ ys, last.uid < y.uid := by
  obtain ⟨hxs, -, hcross⟩ := List.pairwise_append.mp hsorted
  refine ⟨fun x hx => ?_, fun y hy => hcross last (List.mem_of_getLast? hlast) y hy⟩
  obtain ⟨init, rfl⟩ := List.getLast?_eq_some_iff.mp hlast
  rcases List.mem_append.mp hx with hx | hx
  · exact ((List.pairwise_append.mp hxs).2.2 x hx last (List.mem_singleton_self _)).le
  · rw [List.mem_singleton.mp hx]

/-- The loop from any page on: what is done is in the response, and what is left is above the
cursor. -/
theorem sends_deletedPages {done rest : List Revision} {after : Int}
    (hitems : w.store.db.deletedItems peer.session.vault suppress = done ++ rest)
    (hafter : 0 ≤ after) (hdone : ∀ x ∈ done, x.uid ≤ after) (hrest : ∀ x ∈ rest, after < x.uid)
    (hfits : FitsResponse done) :
    Code.Sends (answering server) inputs w
      (deletedPages peer suppress after (deletedPrefix done) done.isEmpty)
      (deletedFrames peer w.store.db (inputs 0) (done ++ rest)) := by
  induction hlength : rest.length using Nat.strong_induction_on generalizing done rest after with
  | _ n ih =>
    have hc := w.store.constraints
    have hpage : w.store.db.listDeletedPage peer.session.vault suppress after deletedPageSize =
        rest.take 64 := by
      have hbelow : (done.filter fun x => decide (after < x.uid)) = [] :=
        List.filter_eq_nil_iff.mpr fun x hx => by simpa using hdone x hx
      have habove : (rest.filter fun x => decide (after < x.uid)) = rest :=
        List.filter_eq_self.mpr fun x hx => by simpa using hrest x hx
      rw [listDeletedPage_eq_take hc hafter, hitems, List.filter_append, hbelow, habove,
        List.nil_append]
    have hsplit : done ++ rest = (done ++ rest.take 64) ++ rest.drop 64 := by
      rw [List.append_assoc, List.take_append_drop]
    refine .read ?_
    simp only [hpage, appendItems_eq _ hfits]
    by_cases hpageFits : FitsResponse (done ++ rest.take 64)
    · simp only [if_pos hpageFits]
      split
      · -- a short page is the last one
        rename_i hshort
        have hall : rest.take 64 = rest := by
          rw [List.length_take] at hshort
          exact List.take_of_length_le (by simp only [deletedPageSize] at hshort; omega)
        rw [hall] at hpageFits ⊢
        rw [deletedFrames, if_pos hpageFits, deletedText_eq]
        exact sends_check (sends_reply _)
      · rename_i hfull
        have hlong : 64 ≤ rest.length := by
          rw [List.length_take] at hfull
          simp only [deletedPageSize] at hfull
          omega
        have hne : rest.take 64 ≠ [] := by
          refine List.ne_nil_of_length_pos ?_
          rw [List.length_take]
          omega
        obtain ⟨last, hlast⟩ : ∃ last, (rest.take 64).getLast? = some last :=
          ⟨_, List.getLast?_eq_some_getLast hne⟩
        have hsorted : (rest.take 64 ++ rest.drop 64).Pairwise fun x y => x.uid < y.uid := by
          rw [List.take_append_drop]
          exact (List.pairwise_append.mp (hitems ▸ pairwise_deletedItems hc)).2.1
        obtain ⟨hle, hlt⟩ := sorted_split hsorted hlast
        have hcursor : after < last.uid :=
          hrest last (List.mem_of_mem_take (List.mem_of_getLast? hlast))
        rw [hlast, Option.map_some, Option.getD_some, hsplit]
        refine .goto (ih _ ?_ (hitems.trans hsplit) (by omega) ?_ hlt hpageFits rfl)
        · rw [← hlength, List.length_drop]
          omega
        · intro x hx
          rcases List.mem_append.mp hx with hx | hx
          · exact (hdone x hx).trans hcursor.le
          · exact hle x hx
    · simp only [if_neg hpageFits]
      have hlong : ¬FitsResponse (done ++ rest) := by
        rw [hsplit]
        exact fun h => hpageFits h.of_append
      rw [deletedFrames, if_neg hlong]
      exact sends_reply _

end Loop

/-- The paged loop of `deleted` comes to an end.  It sends the JSON text of the whole listing to a
session that is still active, and the size error just if that text is too long; and everything
listed can be restored. -/
theorem deleted_listing_exact {phc : PhcParser} {server : Server} {peer : Peer} {w : World}
    {inputs : Nat → Input} {v : Value} {verifiedAt : Int}
    (hverified : Database.verifyConnection phc w.store.db verifiedAt = .ok ()) :
    let suppress := decide ((v.get "suppressrenames").bind Value.asBool = some true)
    let items := w.store.db.deletedItems peer.session.vault suppress
    Code.Sends (answering server) inputs w (deleted peer v)
        (if (inputs 0).shuttingDown then []
        else if (deletedText items).utf8ByteSize ≤ maxLargeResponseBytes then
          if (inputs 1).granted && w.store.db.validSessionForVault peer.session.tokenHash
              peer.session.vault (inputs 1).now then [.deleted (deletedText items)]
          else [.close 1008 "Authorization revoked"]
        else [.err deletedTooLong]) ∧
      (items.Pairwise fun x y => x.uid < y.uid) ∧
      (∀ x, x ∈ items ↔ ∃ r ∈ w.store.db.revisions,
        DeletedHead w.store.db peer.session.vault suppress r ∧ r.toRevision = x) ∧
      ∀ x ∈ items, ∃ target source,
        (w.store.db.revisions.find? fun r => r.uid = x.uid && r.vaultId = peer.session.vault) =
          some target ∧
        w.store.db.restoreSource peer.session.vault target = some source.uid ∧
        NewestLive w.store.db peer.session.vault x.path x.uid source := by
  intro suppress items
  have hc := w.store.constraints
  have hpositive : ∀ x ∈ items, 0 < x.uid := by
    intro x hx
    obtain ⟨r, hr, -, rfl⟩ := mem_deletedItems.mp hx
    have huid := ((LogicalInvariants.of_verifyConnection hverified).revision r hr).1
    exact Int.lt_of_lt_of_le (by decide) huid.1
  have hall : w.store.db.deletedItems peer.session.vault suppress = [] ++ items := rfl
  have hempty : FitsResponse [] := by decide
  refine ⟨.input ?_, pairwise_deletedItems hc, fun x => mem_deletedItems,
    fun x hx => exists_restoreSource hc hx⟩
  split
  · exact .goto .stop
  · exact .goto (sends_deletedPages hall le_rfl (fun _ h => nomatch h) hpositive hempty)

/-- A note was pushed and deleted, and nothing is in the way. -/
theorem deleted_listing_exact_of_note :
    let items := deletedNote.db.deletedItems "vault" false
    items.map (·.uid) = [2] ∧
      Code.Sends (answering largeServer) (fun _ => bestInput) ⟨deletedNote, 500⟩
        (deleted ownerPeer .null) [.deleted (deletedText items)] := by
  intro items
  have hverified : Database.verifyConnection onePhc deletedNote.db 500 = .ok () := by decide +kernel
  have hfits : (deletedText items).utf8ByteSize ≤ maxLargeResponseBytes := by decide +kernel
  have hactive : (bestInput.granted && deletedNote.db.validSessionForVault
      ownerPeer.session.tokenHash ownerPeer.session.vault bestInput.now) = true := by decide +kernel
  have hframes : (if bestInput.shuttingDown then []
      else if (deletedText items).utf8ByteSize ≤ maxLargeResponseBytes then
        if bestInput.granted && deletedNote.db.validSessionForVault ownerPeer.session.tokenHash
            ownerPeer.session.vault bestInput.now then [.deleted (deletedText items)]
        else [.close 1008 "Authorization revoked"]
      else [.err deletedTooLong]) = [Frame.deleted (deletedText items)] := by
    rw [if_pos hfits, if_pos hactive]
    rfl
  refine ⟨by decide +kernel, ?_⟩
  rw [← hframes]
  exact (deleted_listing_exact (w := ⟨deletedNote, 500⟩) hverified).1

end DataPlane

end Blackglass
