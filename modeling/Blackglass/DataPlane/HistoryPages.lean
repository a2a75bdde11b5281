import Blackglass.DataPlane.DeletedListing

/-!
# The history of a path, page by page

A client asks for the history of a path and gets the newest hundred revisions, with a flag that
says whether there are older ones; it asks again for those older than the last it has got, until
the flag says no.  Between two requests others push, restore and purge.  `Paging` is such a client
next to a store that changes; a page is what the task of its connection sends.
-/

namespace Blackglass

open Json Rows Transition

namespace DataPlane

open Task (Code)

/-! ## One page -/

/-- The revisions of a path older than `last`, newest first. -/
def olderRevisions (db : Database) (vault path : String) (last : Option Int) : List Revision :=
  (sortedRevisions (db.revisions.filter fun r =>
    r.vaultId = vault && r.path = path && last.all (r.uid < ·))).reverse

/-- The frame that answers a `history` request. -/
def historyAnswer (db : Database) (vault path : String) (last : Option Int) : Frame :=
  let items := ((olderRevisions db vault path last).take 100).map (·.toNotice)
  let more := decide (100 < (olderRevisions db vault path last).length)
  if maxLargeResponseBytes < (historyText items more).utf8ByteSize then
    .err "History response exceeds the safe wire limit"
  else .history items more

section Page

variable {db : Database} {vault path : String} {last : Option Int}

theorem mem_olderRevisions {x : Revision} :
    x ∈ olderRevisions db vault path last ↔ ∃ r ∈ db.revisions,
      (r.vaultId = vault ∧ r.path = path ∧ ∀ l ∈ last, r.uid < l) ∧ r.toRevision = x := by
  cases last <;> simp [olderRevisions, mem_sortedRevisions, and_assoc]

theorem pairwise_olderRevisions (hc : Constraints db) :
    (olderRevisions db vault path last).Pairwise fun x y => y.uid < x.uid :=
  List.pairwise_reverse.mpr (hc.pairwise_filter _)

variable (db vault path last) in
/-- A fetch of one row more than a page tells whether there are more. -/
theorem historyPage_take :
    (db.historyPage vault path last 101).take 100 = (olderRevisions db vault path last).take 100 ∧
      (100 < (db.historyPage vault path last 101).length ↔
        100 < (olderRevisions db vault path last).length) := by
  have hpage : db.historyPage vault path last 101 =
      (olderRevisions db vault path last).take 101 := rfl
  rw [hpage, List.take_take, List.length_take]
  exact ⟨rfl, by omega⟩

/-- A revision on no page up to this one is older than all of its items. -/
theorem lt_of_mem_drop {xs : List Revision} (hxs : xs.Pairwise fun x y => y.uid < x.uid) {n : Nat}
    {x y : Revision} (hx : x ∈ xs.take n) (hy : y ∈ xs.drop n) : y.uid < x.uid := by
  rw [← List.take_append_drop n xs] at hxs
  exact (List.pairwise_append.mp hxs).2.2 x hx y hy

end Page

/-- The path of a `history` message. -/
def historyPath (v : Value) : Option String :=
  ((v.get "path").bind Value.asStr).filter fun path => (bounded path 16384).isSome

theorem history_eq (peer : Peer) (v : Value) :
    history peer v = unlessShuttingDown peer (match historyPath v with
      | none => reply peer (.err "Invalid history path")
      | some path => .read fun w => check peer "Authorization revoked"
          (reply peer (historyAnswer w.store.db peer.session.vault path
            ((v.get "last").bind Value.asI64)))) := by
  unfold history historyPath
  refine congrArg (unlessShuttingDown peer) ?_
  cases ((v.get "path").bind Value.asStr).filter fun path => (bounded path 16384).isSome with
  | none => rfl
  | some path =>
    refine congrArg Code.read (funext fun w => congrArg (check peer _) ?_)
    obtain ⟨htake, hmore⟩ := historyPage_take w.store.db peer.session.vault path
      ((v.get "last").bind Value.asI64)
    simp only [htake, hmore, historyAnswer]
    rw [apply_ite (reply peer)]

/-- What the connection sends in answer to a `history` message. -/
theorem sends_history {server : Server} {peer : Peer} {w : World} {inputs : Nat → Input}
    {v : Value} :
    Code.Sends (answering server) inputs w (history peer v)
      (if (inputs 0).shuttingDown then []
      else match historyPath v with
        | none => [.err "Invalid history path"]
        | some path =>
          if (inputs 1).granted && w.store.db.validSessionForVault peer.session.tokenHash
              peer.session.vault (inputs 1).now then
            [historyAnswer w.store.db peer.session.vault path ((v.get "last").bind Value.asI64)]
          else [.close 1008 "Authorization revoked"]) := by
  rw [history_eq]
  refine .input ?_
  split
  · exact .goto .stop
  · cases historyPath v with
    | none => exact sends_reply _
    | some path => exact .read (sends_check (sends_reply _))

/-- A page that a client gets is the answer of the database at that time. -/
theorem historyAnswer_of_sends {server : Server} {peer : Peer} {w : World}
    {inputs : Nat → Input} {v : Value} {frame : Frame} (hframe : frame.carriesData = true)
    (h : Code.Sends (answering server) inputs w (history peer v) [frame]) :
    ∃ path, historyPath v = some path ∧ frame = historyAnswer w.store.db peer.session.vault path
      ((v.get "last").bind Value.asI64) := by
  have hsent := h.unique sends_history
  split at hsent
  · cases hsent
  · split at hsent
    · cases hsent
      cases hframe
    · rename_i path hpath
      split at hsent
      · exact ⟨path, hpath, by simpa using hsent⟩
      · cases hsent
        cases hframe

/-! ## Sizes -/

/-- Without its `op` a notice is not longer. -/
theorem noticeItem_utf8ByteSize_le (n : PushNotice) :
    (noticeItem n).utf8ByteSize ≤ n.text.utf8ByteSize := by
  have hmembers : n.members = ("op", encodeString n.op) :: n.members.tail := rfl
  rw [noticeItem, encodeMap_utf8ByteSize, PushNotice.text]
  simp only [encodeObject, String.utf8ByteSize_append, encodeMembers_utf8ByteSize]
  rw [hmembers, List.map_cons, List.sum_cons, List.length_cons, List.tail_cons]
  omega

/-- A hundred notices fit. -/
theorem historyText_utf8ByteSize_le {items : List PushNotice} {more : Bool}
    (hlength : items.length ≤ 100) (hitems : ∀ n ∈ items, n.text.utf8ByteSize ≤ maxEventBytes) :
    (historyText items more).utf8ByteSize ≤ maxLargeResponseBytes := by
  have harray : (encodeArray (items.map noticeItem)).utf8ByteSize ≤
      (items.map noticeItem).length * (maxEventBytes + 1) + 2 := by
    refine encodeArray_utf8ByteSize_le fun x hx => ?_
    obtain ⟨n, hn, rfl⟩ := List.mem_map.mp hx
    exact (noticeItem_utf8ByteSize_le n).trans (hitems n hn)
  have hbool : (encodeBool more).utf8ByteSize ≤ 5 := by cases more <;> decide
  have hmemberItems : (encodeString "items").utf8ByteSize = 7 := by decide
  have hmemberMore : (encodeString "more").utf8ByteSize = 6 := by decide
  have hbraces : ("\x7b" : String).utf8ByteSize = 1 ∧ ("\x7d" : String).utf8ByteSize = 1 :=
    ⟨rfl, rfl⟩
  rw [List.length_map] at harray
  have hcount : items.length * (maxEventBytes + 1) ≤ 100 * (maxEventBytes + 1) :=
    Nat.mul_le_mul_right _ hlength
  simp only [historyText, encodeObject, String.utf8ByteSize_append, encodeMembers_utf8ByteSize,
    memberSize, List.map_cons, List.map_nil, List.sum_cons, List.sum_nil, List.length_cons,
    List.length_nil, hmemberItems, hmemberMore, hbraces.1, hbraces.2]
  simp only [maxEventBytes, maxLargeResponseBytes] at hcount harray ⊢
  omega

/-- On a verified database a page is never too long. -/
theorem historyAnswer_of_verified {phc : PhcParser} {db : Database} {verifiedAt : Int}
    (hverified : Database.verifyConnection phc db verifiedAt = .ok ()) (vault path : String)
    (last : Option Int) :
    historyAnswer db vault path last =
      .history (((olderRevisions db vault path last).take 100).map (·.toNotice))
        (100 < (olderRevisions db vault path last).length) := by
  refine if_neg (not_lt.mpr (historyText_utf8ByteSize_le ?_ fun n hn => ?_))
  · rw [List.length_map]
    exact List.length_take_le ..
  · obtain ⟨x, hx, rfl⟩ := List.mem_map.mp hn
    obtain ⟨r, hr, -, rfl⟩ := mem_olderRevisions.mp (List.mem_of_mem_take hx)
    exact (LogicalInvariants.of_verifyConnection hverified).notice r hr

/-! ## A client -/

/-- A store, and a client that has received some notices. -/
structure Paging where
  store : Store
  last : Option Int
  received : List PushNotice
  complete : Bool

namespace Paging

/-- Nothing has been asked for yet. -/
def start (store : Store) : Paging := ⟨store, none, [], false⟩

/-- The state once a page has come. -/
@[simps]
def receive (s : Paging) (items : List PushNotice) (more : Bool) : Paging :=
  { s with
    last := (items.getLast?.map (·.uid)).or s.last
    received := s.received ++ items
    complete := !more }

inductive Turn where
  | other
  | page
deriving DecidableEq

/-- Others commit a request or fail; the client gets the next page. -/
inductive Step (server : Server) (peer : Peer) (path : String) (s : Paging) :
    Turn → Paging → Prop where
  | other (request : Request) (t : Readings) :
      Step server peer path s .other { s with store := s.store.next request t }
  | page {v : Value} {inputs : Nat → Input} {now : Int} {items : List PushNotice} {more : Bool} :
      s.complete = false → historyPath v = some path →
      (v.get "last").bind Value.asI64 = s.last →
      Code.Sends (answering server) inputs ⟨s.store, now⟩ (history peer v) [.history items more] →
      Step server peer path s .page (s.receive items more)

/-- The path has a revision of this `uid`. -/
def Holds (vault path : String) (uid : Int) (s : Paging) : Prop :=
  ∃ r ∈ s.store.db.revisions, r.vaultId = vault ∧ r.path = path ∧ r.uid = uid

section Runs

variable {server : Server} {peer : Peer} {path : String} {s s' : Paging} {turn : Turn}

/-- A page is read from the store as it is then, whatever the message looks like. -/
theorem Step.page_eq (h : s.Step server peer path .page s') :
    s.complete = false ∧
      let older := olderRevisions s.store.db peer.session.vault path s.last
      s' = s.receive ((older.take 100).map (·.toNotice)) (100 < older.length) := by
  cases h with
  | page hopen hpath hlast hsent =>
    obtain ⟨path', hpath', hanswer⟩ := historyAnswer_of_sends rfl hsent
    obtain rfl := Option.some.inj (hpath.symm.trans hpath')
    rw [hlast] at hanswer
    unfold historyAnswer at hanswer
    dsimp only at hanswer
    split at hanswer
    · cases hanswer
    · cases hanswer
      exact ⟨hopen, rfl⟩

/-- The items of a page, newest first. -/
theorem pairwise_items (hc : Constraints s.store.db) (vault : String) :
    (((olderRevisions s.store.db vault path s.last).take 100).map (·.toNotice)).Pairwise
      fun m n => n.uid < m.uid :=
  List.pairwise_map.mpr ((pairwise_olderRevisions hc).sublist (List.take_sublist ..))

theorem le_of_getLast? {items : List PushNotice}
    (hitems : items.Pairwise fun m n => n.uid < m.uid) {z n : PushNotice}
    (hz : items.getLast? = some z) (hn : n ∈ items) : z.uid ≤ n.uid := by
  obtain ⟨init, rfl⟩ := List.getLast?_eq_some_iff.mp hz
  rcases List.mem_append.mp hn with hn | hn
  · exact ((List.pairwise_append.mp hitems).2.2 n hn z (List.mem_singleton_self _)).le
  · rw [List.mem_singleton.mp hn]

/-! ## No notice comes twice -/

/-- What was received descends to the cursor. -/
structure Descending (s : Paging) : Prop where
  sorted : s.received.Pairwise fun m n => n.uid < m.uid
  last : ∀ n ∈ s.received, ∃ l, s.last = some l ∧ l ≤ n.uid

/-- A page of notices below the cursor. -/
theorem Descending.receive (h : s.Descending) {items : List PushNotice} (more : Bool)
    (hitems : items.Pairwise fun m n => n.uid < m.uid)
    (hbelow : ∀ n ∈ items, ∀ l ∈ s.last, n.uid < l) : (s.receive items more).Descending where
  sorted := by
    refine List.pairwise_append.mpr ⟨h.sorted, hitems, fun m hm n hn => ?_⟩
    obtain ⟨l, hl, hle⟩ := h.last m hm
    exact (hbelow n hn l hl).trans_le hle
  last := by
    intro n hn
    cases hlast : items.getLast? with
    | none =>
      obtain rfl := List.getLast?_eq_none_iff.mp hlast
      obtain ⟨l, hl, hle⟩ := h.last n (by simpa [Paging.receive] using hn)
      exact ⟨l, by simpa [Paging.receive] using hl, hle⟩
    | some z =>
      refine ⟨z.uid, by simp [Paging.receive, hlast], ?_⟩
      rcases List.mem_append.mp hn with hn | hn
      · obtain ⟨l, hl, hle⟩ := h.last n hn
        exact (hbelow z (List.mem_of_getLast? hlast) l hl).le.trans hle
      · exact le_of_getLast? hitems hlast hn

theorem Descending.step (h : s.Descending) (hstep : s.Step server peer path turn s') :
    s'.Descending := by
  cases turn with
  | other =>
    cases hstep with
    | other request t => exact ⟨h.sorted, h.last⟩
  | page =>
    obtain ⟨-, rfl⟩ := hstep.page_eq
    refine h.receive _ (pairwise_items s.store.constraints _) fun n hn l hl => ?_
    obtain ⟨x, hx, rfl⟩ := List.mem_map.mp hn
    obtain ⟨r, -, ⟨-, -, hlast⟩, rfl⟩ := mem_olderRevisions.mp (List.mem_of_mem_take hx)
    exact hlast l hl

theorem Descending.nodup (h : s.Descending) : (s.received.map (·.uid)).Nodup :=
  List.pairwise_map.mpr (h.sorted.imp fun hlt => hlt.ne')

/-! ## No notice is missed -/

/-- A revision was received, or is still to come. -/
def Covered (uid : Int) (s : Paging) : Prop :=
  (∃ n ∈ s.received, n.uid = uid) ∨ s.complete = false ∧ ∀ l ∈ s.last, uid < l

/-- A revision that is there when a page is read is on it or below it. -/
theorem Covered.step {uid : Int} (h : s.Covered uid) (hholds : s.Holds peer.session.vault path uid)
    (hstep : s.Step server peer path turn s') : s'.Covered uid := by
  cases turn with
  | other =>
    cases hstep with
    | other request t => exact h
  | page =>
    obtain ⟨-, rfl⟩ := hstep.page_eq
    rcases h with ⟨n, hn, huid⟩ | ⟨-, hlast⟩
    · exact .inl ⟨n, List.mem_append_left _ hn, huid⟩
    · obtain ⟨r, hr, hvault, hpath, rfl⟩ := hholds
      have hc := s.store.constraints
      have holder : r.toRevision ∈ olderRevisions s.store.db peer.session.vault path s.last :=
        mem_olderRevisions.mpr ⟨r, hr, ⟨hvault, hpath, hlast⟩, rfl⟩
      rw [← List.take_append_drop 100 (olderRevisions ..)] at holder
      rcases List.mem_append.mp holder with htake | hdrop
      · exact .inl ⟨_, List.mem_append_right _ (List.mem_map_of_mem htake), rfl⟩
      · have hlong : 100 < (olderRevisions s.store.db peer.session.vault path s.last).length := by
          have hpos := List.length_pos_of_mem hdrop
          rw [List.length_drop] at hpos
          omega
        refine .inr ⟨by simp [Paging.receive, hlong], fun l hl => ?_⟩
        cases hz : (((olderRevisions s.store.db peer.session.vault path s.last).take 100).map
            (·.toNotice)).getLast? with
        | none =>
          have hnil := congrArg List.length (List.getLast?_eq_none_iff.mp hz)
          rw [List.length_map, List.length_take, List.length_nil] at hnil
          omega
        | some z =>
          rw [receive_last, hz] at hl
          obtain rfl : z.uid = l := Option.some.inj hl
          obtain ⟨x, hx, rfl⟩ := List.mem_map.mp (List.mem_of_getLast? hz)
          exact lt_of_mem_drop (pairwise_olderRevisions hc) hx hdrop

/-- There are more just if an older revision of the path is there. -/
theorem more_iff (hc : Constraints s.store.db) (vault : String) :
    100 < (olderRevisions s.store.db vault path s.last).length ↔
      ∃ r ∈ s.store.db.revisions, r.vaultId = vault ∧ r.path = path ∧ (∀ l ∈ s.last, r.uid < l) ∧
        ∀ n ∈ ((olderRevisions s.store.db vault path s.last).take 100).map (·.toNotice),
          r.uid < n.uid := by
  constructor
  · intro hlong
    have hne : (olderRevisions s.store.db vault path s.last).drop 100 ≠ [] :=
      List.ne_nil_of_length_pos (by rw [List.length_drop]; omega)
    obtain ⟨y, hy⟩ := List.exists_mem_of_ne_nil _ hne
    obtain ⟨r, hr, ⟨hvault, hpath, hlast⟩, rfl⟩ := mem_olderRevisions.mp (List.mem_of_mem_drop hy)
    refine ⟨r, hr, hvault, hpath, hlast, ?_⟩
    exact List.forall_mem_map.mpr fun x hx => lt_of_mem_drop (pairwise_olderRevisions hc) hx hy
  · rintro ⟨r, hr, hvault, hpath, hlast, hbelow⟩
    by_contra hshort
    have holder := mem_olderRevisions.mpr ⟨r, hr, ⟨hvault, hpath, hlast⟩, rfl⟩
    have hall := List.take_of_length_le (not_lt.mp hshort)
    rw [hall] at hbelow
    exact lt_irrefl _ (List.forall_mem_map.mp hbelow _ holder)

end Runs

end Paging

/-- Whatever is pushed, restored and purged between its requests, a client receives notices of
the path only, in descending order and without repetition; at the end it has each revision that
was there all the time, once.  Each page says rightly whether there were older revisions, and on
a verified database none is refused for its size. -/
theorem history_pages_complete (phc : PhcParser) {server : Server} {peer : Peer} {path : String}
    {store : Store} {turns : List Paging.Turn} {s : Paging}
    (hrun : Run (Paging.Step server peer path) (.start store) turns s) :
    (s.received.Pairwise fun m n => n.uid < m.uid) ∧
      (∀ s', s.Step server peer path .page s' → ∃ items, s'.received = s.received ++ items ∧
        (∀ n ∈ items, ∃ r ∈ s.store.db.revisions,
          r.vaultId = peer.session.vault ∧ r.path = path ∧ r.toRevision.toNotice = n) ∧
        (s'.complete = false ↔ ∃ r ∈ s.store.db.revisions, r.vaultId = peer.session.vault ∧
          r.path = path ∧ (∀ l ∈ s.last, r.uid < l) ∧ ∀ n ∈ items, r.uid < n.uid)) ∧
      (∀ uid, Run (Guarded (fun s _ => s.Holds peer.session.vault path uid)
          (Paging.Step server peer path)) (.start store) turns s → s.complete = true →
        s.received.countP (fun n => n.uid = uid) = 1) ∧
      ∀ v inputs now verifiedAt, Database.verifyConnection phc s.store.db verifiedAt = .ok () →
        ¬Code.Sends (answering server) inputs ⟨s.store, now⟩ (history peer v)
          [.err "History response exceeds the safe wire limit"] := by
  have hstart : (Paging.start store).Descending := ⟨List.Pairwise.nil, fun _ h => nomatch h⟩
  have hdescending : s.Descending := hrun.invariant (fun h => h.step) hstart
  refine ⟨hdescending.sorted, fun s' hstep => ?_, fun uid hthroughout hcomplete => ?_,
    fun v inputs now verifiedAt hverified hsent => ?_⟩
  · obtain ⟨-, rfl⟩ := hstep.page_eq
    refine ⟨_, rfl, fun n hn => ?_, ?_⟩
    · obtain ⟨x, hx, rfl⟩ := List.mem_map.mp hn
      obtain ⟨r, hr, ⟨hvault, hpath, -⟩, rfl⟩ := mem_olderRevisions.mp (List.mem_of_mem_take hx)
      exact ⟨r, hr, hvault, hpath, rfl⟩
    · rw [Paging.receive_complete, Bool.not_eq_false', decide_eq_true_eq]
      exact Paging.more_iff s.store.constraints peer.session.vault
  · have hcovered : s.Covered uid := hthroughout.invariant_of_guard
      (fun h hholds hstep => h.step hholds hstep) (.inr ⟨rfl, by simp [Paging.start]⟩)
    obtain ⟨n, hn, huid⟩ := hcovered.resolve_right fun h => by simp [hcomplete] at h
    refine le_antisymm (countP_key_le_one hdescending.nodup uid) ?_
    exact List.countP_pos_iff.mpr ⟨n, hn, by simpa using huid⟩
  · have hframes := hsent.unique sends_history
    split at hframes
    · cases hframes
    · split at hframes
      · simp at hframes
      · split at hframes
        · rw [historyAnswer_of_verified hverified] at hframes
          cases hframes
        · cases hframes

/-- The two revisions of a note that was deleted, on one page. -/
theorem history_pages_complete_of_note :
    ∃ s, Run (Paging.Step largeServer ownerPeer "note") (.start deletedNote) [.page] s ∧
      s.received.map (·.uid) = [2, 1] ∧ s.received.countP (fun n => n.uid = 1) = 1 := by
  have hverified : Database.verifyConnection onePhc deletedNote.db 500 = .ok () := by decide +kernel
  let v : Value := .object [("path", .string "note")]
  have hpath : historyPath v = some "note" := by decide +kernel
  have hactive : (bestInput.granted && deletedNote.db.validSessionForVault
      ownerPeer.session.tokenHash ownerPeer.session.vault bestInput.now) = true := by decide +kernel
  have hsent : Code.Sends (answering largeServer) (fun _ => bestInput) ⟨deletedNote, 500⟩
      (history ownerPeer v) [historyAnswer deletedNote.db "vault" "note" none] := by
    have hframes : Code.Sends (answering largeServer) (fun _ => bestInput) ⟨deletedNote, 500⟩
      (history ownerPeer v) _ := sends_history
    rw [hpath] at hframes
    simp only [hactive, if_true] at hframes
    exact hframes
  rw [historyAnswer_of_verified hverified] at hsent
  have hstep := Paging.Step.page (s := .start deletedNote) rfl hpath rfl hsent
  have hthroughout : Run (Guarded (fun s _ => s.Holds "vault" "note" 1)
      (Paging.Step largeServer ownerPeer "note")) (.start deletedNote) [.page] _ :=
    .cons ⟨by unfold Paging.Holds; decide +kernel, hstep⟩ (.nil _)
  exact ⟨_, hthroughout.of_guarded, by decide +kernel,
    (history_pages_complete onePhc hthroughout.of_guarded).2.2.1 1 hthroughout
      (by decide +kernel)⟩

end DataPlane

end Blackglass
