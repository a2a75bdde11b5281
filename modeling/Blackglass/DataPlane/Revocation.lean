import Blackglass.DataPlane.Connection

/-!
# Revocation reaches a connection within one frame

Between any two frames that tell something about a vault, the task of a connection asks for
its session again, and every transaction that changes something about a vault asks in itself.
Each handler is looked at once (`Guards`); what follows for all interleavings with other tasks
is `Task.one_more_frame`.
-/

namespace Blackglass

open Transition Json

theorem SameVaults.refl (db : Database) : SameVaults db db := ⟨rfl, rfl, rfl, rfl⟩

namespace DataPlane

open Task

/-- The token and the vault of a connection. -/
structure Binding where
  tokenHash : String
  vault : String
deriving DecidableEq

def Peer.binding (peer : Peer) : Binding := ⟨peer.session.tokenHash, peer.session.vault⟩

def Label.key : Label → Option Binding
  | .hello => none
  | .loop peer | .replay peer .. | .pieces peer .. | .deletedPages peer .. | .acknowledge peer .. =>
    some peer.binding

/-- `valid_session_for_vault` of the connection's token and vault. -/
def World.valid (w : World) (b : Binding) : Bool :=
  w.store.db.validSessionForVault b.tokenHash b.vault w.now

def access (key : Option Binding) (w : World) : Prop := ∃ b ∈ key, w.valid b = true

instance (key : Option Binding) (w : World) : Decidable (access key w) :=
  inferInstanceAs (Decidable (∃ b ∈ key, w.valid b = true))

/-- Something about a vault is not as before. -/
def touches (w w' : World) : Prop := ¬SameVaults w.store.db w'.store.db

/-- Between any two frames of data the code has found the session, and before the first one too
unless `armed`. -/
structure Guards (key : Option Binding) (armed : Prop) (c : Program) : Prop where
  guarded : c.Guarded (access key) (fun f => f.carriesData = true) touches armed

/-! ## Steps that all handlers are made of -/

section Guards

variable {key : Option Binding} {armed : Prop} {peer : Peer} {reason : String} {k : Program}

theorem not_touches {w w' : World} (h : SameVaults w.store.db w'.store.db) : ¬touches w w' :=
  not_not_intro h

namespace Guards

theorem mono {armed' : Prop} (hle : armed → armed') (h : Guards key armed k) :
    Guards key armed' k :=
  ⟨h.guarded.mono hle⟩

theorem stop : Guards key armed .stop := ⟨trivial⟩

theorem goto (label : Label) : Guards key armed (.goto label) := ⟨trivial⟩

theorem input {k : Input → Program} (h : ∀ i, Guards key armed (k i)) :
    Guards key armed (.input k) :=
  ⟨fun i => (h i).guarded⟩

/-- A transaction that changes nothing about a vault. -/
theorem transact {write : World → World} {k : World → Program}
    (hwrite : ∀ w, SameVaults w.store.db (write w).store.db)
    (h : ∀ w, Guards key (armed ∨ access key w) (k w)) : Guards key armed (.transact write k) :=
  ⟨fun w => ⟨fun ht => absurd ht (not_touches (hwrite w)), (h w).guarded⟩⟩

theorem read {k : World → Program} (h : ∀ w, Guards key (armed ∨ access key w) (k w)) :
    Guards key armed (.read k) :=
  transact (fun _ => .refl _) h

/-- A frame that carries no data, and whatever the code does then. -/
theorem send {frame : Frame} (hframe : frame.carriesData = false) (h : Guards key armed k) :
    Guards key armed (.send frame k) := by
  have hno : ¬frame.carriesData = true := by simp [hframe]
  exact ⟨fun hdata => absurd hdata hno, h.guarded.mono fun harmed => ⟨harmed, hno⟩⟩

/-- A frame of data has to be armed, and what comes after it is not. -/
theorem sendData (frame : Frame) (h : ∀ armed, Guards key armed k) :
    Guards key True (.send frame k) :=
  ⟨fun _ => trivial, (h _).guarded⟩

theorem close (code : Nat) (reason : String) : Guards key armed (close code reason) :=
  send rfl stop

theorem reply (peer : Peer) {frame : Frame} (hframe : frame.carriesData = false) :
    Guards key armed (reply peer frame) :=
  send hframe (goto _)

theorem replyData (peer : Peer) (frame : Frame) : Guards key True (DataPlane.reply peer frame) :=
  sendData frame fun _ => goto _

theorem atTime {k : Input → Program} (h : ∀ i, Guards key armed (k i)) :
    Guards key armed (atTime k) :=
  input fun i => transact (fun _ => .refl _) fun _ => (h i).mono .inl

theorem unlessShuttingDown (h : Guards key armed k) :
    Guards key armed (unlessShuttingDown peer k) := by
  refine input fun i => ?_
  split
  · exact goto _
  · exact h

/-- What follows a check is armed. -/
theorem check (h : Guards (some peer.binding) True k) :
    Guards (some peer.binding) armed (check peer reason k) := by
  refine atTime fun i => read fun w => ?_
  split
  · rename_i hvalid
    exact h.mono fun _ => .inr ⟨_, rfl, (Bool.and_eq_true_iff.mp hvalid).2⟩
  · exact close ..

end Guards

theorem sameVaults_renewSessionForVault (db : Database) (hash vault : String)
    (ttlSecs now : Int) : SameVaults db (db.renewSessionForVault hash vault ttlSecs now).2 := by
  unfold Database.renewSessionForVault
  split
  · exact .refl db
  · split
    · exact .refl db
    · simp only
      split
      · exact .refl db
      · exact ⟨rfl, rfl, rfl, rfl⟩

/-- Only a session that has access is renewed. -/
theorem valid_of_renewSessionForVault {db : Database} {hash vault : String} {ttlSecs now : Int}
    (h : (db.renewSessionForVault hash vault ttlSecs now).1.isSome = true) :
    db.validSessionForVault hash vault now = true := by
  obtain ⟨htoken, hvault⟩ := shape_of_renewSessionForVault h
  refine validSessionForVault_eq_true.mpr ⟨htoken, hvault, ?_⟩
  rw [← authorizedExpiry_isSome_iff]
  unfold Database.renewSessionForVault at h
  split at h
  · cases h
  · cases hexpiry : db.authorizedExpiry hash vault now with
    | none => simp [hexpiry] at h
    | some expiry => rfl

/-- A renewal is a check. -/
theorem Guards.renewActiveSession {server : Server} (h : Guards (some peer.binding) True k) :
    Guards (some peer.binding) armed (renewActiveSession server peer reason k) := by
  refine atTime fun i => ?_
  split
  · refine transact (fun w => sameVaults_renewSessionForVault ..) fun w => ?_
    split
    · rename_i hrenewed
      exact h.mono fun _ => .inr ⟨_, rfl, valid_of_renewSessionForVault hrenewed⟩
    · exact close ..
  · exact close ..

/-! ## Commits -/

/-- A request of the connection: it shows the connection's token, for the connection's vault. -/
def Peer.Makes (peer : Peer) (request : Request) : Prop :=
  request.tokenHash = peer.session.tokenHash ∧ request.vault? = some peer.session.vault

/-- A transaction that changes something about a vault has found the session. -/
theorem valid_of_effect {db db' : Database} {t : Readings} {request : Request} {answer : Answer}
    (heffect : Effect db t request answer db') (hc : Constraints db) (hrequest : peer.Makes request)
    (hne : db' ≠ db) : db.validSessionForVault peer.session.tokenHash peer.session.vault
      t.authorizedAt = true := by
  obtain ⟨⟨s, hs, htoken, huser, hexpires, hrevoked⟩, hactive⟩ := heffect.authorized
  have hrelated := (heffect.permitted hc hne).related hc hrequest.2
  refine validSessionForVault_eq_true.mpr ⟨peer.token_size, peer.vault_nonempty, ?_⟩
  refine ⟨s, hs, htoken.trans hrequest.1, ?_, ?_, huser ▸ hrelated⟩
  · simp [SessionRow.live, hexpires, hrevoked]
  · rw [huser]
    exact activeUser_iff.mpr hactive

theorem World.commit_cases (w : World) (request : Request) (later : Int) :
    w.commit request later = w ∨ ∃ answer store,
      Effect w.store.db ⟨w.now, later⟩ request answer store.db ∧
        w.commit request later = { w with store := store } := by
  unfold World.commit
  split
  · rename_i answer store hexecute
    exact .inr ⟨answer, store, Store.effect_of_execute hexecute, rfl⟩
  · exact .inl rfl

/-- A transaction of the connection: it may change its vault, where it has found the session. -/
theorem Guards.commit {request : Request} {k : Except DbError Answer → Program}
    (hrequest : peer.Makes request) (h : ∀ answer, Guards (some peer.binding) armed (k answer)) :
    Guards (some peer.binding) armed (commit request k) := by
  refine atTime fun i => ⟨fun w => ⟨fun ht => ⟨_, rfl, ?_⟩, ((h _).mono .inl).guarded⟩⟩
  have ht : touches w (w.commit request i.later) := ht
  obtain hsame | ⟨answer, store, heffect, hstore⟩ := w.commit_cases request i.later
  · rw [hsame] at ht
    exact absurd ht (not_touches (.refl _))
  · rw [hstore] at ht
    have hne : store.db ≠ w.store.db := fun hsame =>
      absurd ht (not_touches (hsame ▸ .refl _))
    have hvalid := valid_of_effect heffect w.store.constraints hrequest hne
    exact hvalid

end Guards

/-! ## The handlers -/

section Handlers

variable {armed : Prop} (server : Server) (peer : Peer)

/-- Nothing is sent that is not an error message or a greeting, and nothing but a session is
changed, before there is a session to be asked for. -/
theorem guards_init (v : Value) : Guards none armed (init server v) := by
  have hunable : ∀ {armed}, Guards none armed unableToAuthenticate := .send rfl (.goto _)
  have hnotFound : ∀ {armed}, Guards none armed vaultNotFound := .send rfl (.close ..)
  have hwelcome : ∀ {armed} peer initial version,
      Guards none armed (welcome server peer initial version) := by
    intro armed peer initial version
    refine .read fun w => ?_
    simp only
    split
    · exact .send rfl (.close ..)
    · exact .send rfl (.goto _)
  have hauthenticate : ∀ {armed} context vault,
      Guards none armed (authenticate server v context vault) := by
    intro armed context vault
    refine .atTime fun _ => .transact (fun w => sameVaults_renewSessionForVault ..) fun w => ?_
    split
    · split
      · exact .send rfl (.close ..)
      · refine .input fun i => ?_
        split
        · exact hwelcome ..
        · exact .send rfl (.close ..)
    · exact hunable
  refine .atTime fun _ => .read fun w => ?_
  split
  · exact hunable
  · unfold initVault
    split
    · exact hnotFound
    · split
      · exact hnotFound
      · split
        · exact hunable
        · exact hauthenticate ..

theorem guards_sendReady (readyVersion : Int) :
    Guards (some peer.binding) armed (sendReady peer readyVersion) :=
  .check (.replyData ..)

/-- One notice at a time. -/
theorem guards_sendPage (page : List Revision) {k : Program}
    (hk : ∀ armed, Guards (some peer.binding) armed k) :
    Guards (some peer.binding) armed (sendPage peer page k) := by
  induction page generalizing armed with
  | nil => exact hk armed
  | cons r page ih =>
    exact .unlessShuttingDown (.check (.unlessShuttingDown (.sendData _ fun _ => ih)))

theorem guards_replay (initial : Bool) (cursor readyVersion : Int) :
    Guards (some peer.binding) armed (replay peer initial cursor readyVersion) := by
  refine .unlessShuttingDown (.check (.read fun w => ?_))
  simp only
  split
  · exact guards_sendReady ..
  · refine guards_sendPage peer _ fun armed => ?_
    split
    · exact guards_sendReady ..
    · exact .goto _

theorem guards_publishCommitted (conditional : Bool) (r : Revision) :
    Guards (some peer.binding) armed (publishCommitted peer conditional r) := by
  unfold publishCommitted
  split
  · exact .stop
  · exact .unlessShuttingDown (.goto _)

/-- A check before each notice, and one more before the answer. -/
theorem guards_acknowledgeCommit (committed : Stream.Event) (conditional : Bool) :
    Guards (some peer.binding) armed (acknowledgeCommit peer committed conditional) := by
  refine .input fun i => ?_
  cases i.delivery with
  | invalidated vault =>
    simp only
    split
    · exact .close ..
    · exact .goto _
  | event event =>
    simp only
    split
    · refine .unlessShuttingDown (.check (.sendData _ fun armed => ?_))
      split
      · exact .check (.replyData ..)
      · split
        · exact .stop
        · exact .goto _
    · exact .goto _
  | lagged => exact .close ..
  | closed => exact .stop

theorem guards_afterPush (revision : NewRevision) {quotaExceeded : Program}
    (hquota : Guards (some peer.binding) armed quotaExceeded) (answer : Except DbError Answer) :
    Guards (some peer.binding) armed (afterPush peer revision quotaExceeded answer) := by
  unfold afterPush
  split
  · exact guards_publishCommitted ..
  · exact hquota
  · exact .reply peer rfl
  · exact .stop

theorem Peer.makes_pushRequest {revision : NewRevision}
    (hvault : revision.vaultId = peer.session.vault) (file : Blob) :
    peer.Makes (pushRequest server.config peer.session revision file) := by
  unfold pushRequest
  split
  · exact ⟨rfl, congrArg some hvault⟩
  · exact ⟨rfl, congrArg some hvault⟩

theorem guards_push (v : Value) : Guards (some peer.binding) armed (push server peer v) := by
  unfold push
  split
  · exact .reply peer rfl
  · rename_i revision hpush
    split
    · refine .commit (peer.makes_pushRequest server (beginPush_own hpush).1 []) ?_
      exact guards_afterPush peer revision (.reply peer rfl)
    · refine .input fun uploads => .input fun userUploads => .input fun reservation => ?_
      split
      · exact .reply peer rfl
      · split
        · exact .reply peer rfl
        · split
          · exact .reply peer rfl
          · exact .reply _ rfl

theorem guards_uploadChunk (bytes : Blob) :
    Guards (some peer.binding) armed (uploadChunk server peer bytes) := by
  unfold uploadChunk
  split
  · exact .close ..
  · rename_i p hp
    have hvault := (peer.pending_own p hp).1
    simp only
    split
    · exact .close ..
    · split
      · exact .close ..
      · refine .unlessShuttingDown ?_
        split
        · exact .reply _ rfl
        · split
          · exact .close ..
          · refine .commit ⟨rfl, congrArg some hvault⟩ ?_
            exact guards_afterPush peer.idle p.revision (.close ..)

theorem guards_restoreRevision (v : Value) :
    Guards (some peer.binding) armed (restoreRevision server peer v) := by
  refine .input fun i => ?_
  split
  · exact .reply peer rfl
  · rename_i request hrequest
    simp only [restore, Outcome.bind_eq_ok, Outcome.pure_eq_ok] at hrequest
    obtain ⟨uid, -, rfl⟩ := hrequest
    refine .commit ⟨rfl, rfl⟩ fun answer => ?_
    split
    · exact guards_publishCommitted ..
    · exact .reply peer rfl
    · exact .reply peer rfl
    · exact .reply peer rfl
    · exact .stop

theorem guards_purge : Guards (some peer.binding) True (purge peer) := by
  refine .commit ⟨rfl, rfl⟩ fun answer => ?_
  split
  · exact .replyData ..
  · exact .stop

/-- A check before the piece is read, one before it is sent, and a renewal after it. -/
theorem guards_pullPieces (uid offset size : Int) :
    Guards (some peer.binding) armed (pullPieces server peer uid offset size) := by
  unfold pullPieces
  split
  · refine .unlessShuttingDown (.check (.unlessShuttingDown (.read fun w => ?_)))
    simp only
    split
    · exact .stop
    · exact .check (.sendData _ fun _ => .renewActiveSession (.goto _))
  · exact .goto _

theorem guards_pull (v : Value) : Guards (some peer.binding) armed (pull peer v) := by
  unfold pull
  split
  · exact .reply peer rfl
  · refine .read fun w => ?_
    unfold pullAnswer
    split
    · exact .reply peer rfl
    · split
      · refine .check ?_
        split
        · exact .replyData ..
        · exact .sendData _ fun _ => .goto _
      · exact .reply peer rfl

theorem guards_history (v : Value) : Guards (some peer.binding) armed (history peer v) := by
  refine .unlessShuttingDown ?_
  split
  · exact .reply peer rfl
  · refine .read fun w => .check ?_
    split
    · exact .reply peer rfl
    · exact .replyData ..

theorem guards_deletedPages (suppress : Bool) (after : Int) (response : String) (first : Bool) :
    Guards (some peer.binding) armed (deletedPages peer suppress after response first) := by
  refine .read fun w => ?_
  simp only
  split
  · exact .reply peer rfl
  · split
    · exact .check (.replyData ..)
    · exact .goto _

theorem guards_size : Guards (some peer.binding) armed (size server peer) := by
  refine .input fun i => .read fun w => ?_
  split
  · exact .check (.replyData ..)
  · exact .stop

theorem guards_usernames : Guards (some peer.binding) armed (usernames peer) :=
  .read fun _ => .check (.replyData ..)

theorem guards_dispatch (v : Value) :
    Guards (some peer.binding) True (dispatch server peer v) := by
  unfold dispatch
  split
  · exact .reply peer rfl
  · exact .reply peer rfl
  · exact guards_size server peer
  · exact guards_usernames peer
  · exact guards_push server peer v
  · exact guards_pull peer v
  · exact .unlessShuttingDown (.goto _)
  · exact guards_history peer v
  · exact guards_restoreRevision server peer v
  · exact guards_purge peer
  · exact .reply peer rfl

theorem guards_handleMessage (message : ClientMessage) :
    Guards (some peer.binding) armed (handleMessage server peer message) := by
  cases message with
  | text size value =>
    simp only [handleMessage]
    split
    · exact .close ..
    · cases value with
      | none => exact .reply peer rfl
      | some v => exact .check (guards_dispatch server peer v)
  | binary bytes => exact .check (guards_uploadChunk server peer bytes)
  | ping payload => exact .check (.reply peer rfl)
  | pong => exact .goto _
  | close => exact .stop

theorem guards_handleGreeting (message : ClientMessage) :
    Guards none armed (handleGreeting server message) := by
  cases message with
  | text size value =>
    simp only [handleGreeting]
    split
    · exact .close ..
    · cases value with
      | none => exact .close ..
      | some v =>
        simp only
        split
        · exact .close ..
        · exact guards_init server v
  | binary _ | ping _ | pong => exact .close ..
  | close => exact .stop

theorem guards_delivered (delivery : Delivery) :
    Guards (some peer.binding) armed (delivered peer delivery) := by
  cases delivery with
  | invalidated vault =>
    simp only [delivered]
    split
    · exact .close ..
    · exact .goto _
  | event event =>
    simp only [delivered]
    split
    · exact .check (.replyData ..)
    · exact .goto _
  | lagged => exact .close ..
  | closed => exact .stop

theorem guards_cutoff {key : Option Binding} (cutoff : Cutoff) (peer : Option Peer) :
    Guards key armed (cutoff.code peer) := by
  unfold Cutoff.code
  split
  · exact .close ..
  · exact .close ..
  · exact .close ..
  · split
    · exact .close ..
    · exact .goto _
  · split
    · exact .close ..
    · exact .goto _
  · exact .goto _
  · exact .goto _
  · exact .goto _
  · exact .goto _

theorem guards_socketLoop : Guards (some peer.binding) armed (socketLoop server peer) := by
  refine .input fun i => ?_
  split
  · exact .stop
  · exact .renewActiveSession (guards_handleMessage server peer _)
  · exact guards_delivered peer _
  · exact .check (.goto _)
  · exact guards_cutoff ..

theorem guards_greetingLoop : Guards none armed (greetingLoop server) := by
  refine .input fun i => ?_
  split
  · exact guards_handleGreeting server _
  · exact .goto _
  · exact .goto _
  · exact guards_cutoff ..

/-- Every loop of the task. -/
theorem guarded_body :
    GuardedBody access (fun f => f.carriesData = true) touches (body server) Label.key := by
  intro label
  cases label with
  | hello => exact (guards_greetingLoop server).guarded
  | loop peer => exact (guards_socketLoop server peer).guarded
  | replay peer initial cursor readyVersion => exact (guards_replay peer ..).guarded
  | pieces peer uid offset size => exact (guards_pullPieces server peer ..).guarded
  | deletedPages peer suppress after response first => exact (guards_deletedPages peer ..).guarded
  | acknowledge peer committed conditional => exact (guards_acknowledgeCommit peer ..).guarded

end Handlers

/-! ## Interleavings -/

abbrev TaskState := Task.State World Input Frame Label (Option Binding)

/-- The task of a connection that was just accepted. -/
def accepted (w : World) : TaskState :=
  { store := w, key := none, code := .goto .hello, sent := [] }

/-- One step of the connection, or of anybody else: to the database they may do anything. -/
def Interleaved (server : Server) : TaskState → Turn → TaskState → Prop :=
  Task.Step (body server) Label.key fun _ _ => True

/-- The number of frames sent that tell something about a vault. -/
def framesOfData (s : TaskState) : Nat := s.dataSent fun f => f.carriesData = true

/-- A connection, at any point of any interleaving with other tasks, sends at most one more
frame of data from when `valid_session_for_vault` has become false for its token and vault, as
long as it stays so, and changes nothing about any vault. -/
theorem revocation_within_one_frame (server : Server) {w : World} {s s' : TaskState}
    {before after : List Turn} (hbefore : Run (Interleaved server) (accepted w) before s)
    (hafter : Run (Transition.Guarded (fun s _ => ¬access s.key s.store) (Interleaved server))
      s after s') :
    framesOfData s' ≤ framesOfData s + 1 ∧ ∀ s'', ¬access s'.key s'.store →
      Interleaved server s' .own s'' → SameVaults s'.store.store.db s''.store.store.db := by
  have hstart : (accepted w).code.Guarded (access (accepted w).key)
      (fun f => f.carriesData = true) touches False := trivial
  obtain ⟨armed, hs⟩ := guarded_of_run (guarded_body server) hbefore hstart
  have hmore : ∀ s'', framesOfData s' ≤ framesOfData s + 1 ∧ (¬access s'.key s'.store →
      Interleaved server s' .own s'' → ¬touches s'.store s''.store) := fun s'' =>
    one_more_frame (guarded_body server) (fun _ => not_touches (.refl _)) hs hafter
  exact ⟨(hmore s').1, fun s'' hno hstep => not_not.mp ((hmore s'').2 hno hstep)⟩

/-! ## A collaborator is removed between a check and its frame -/

def sharingServer : Server where
  config := { publicDataHost := "h", perFileMax := 10, storageQuotaBytes := 10,
              storageQuotaBytesPerOwner := 10, sharingAllowedForOwner := fun _ => true }
  sessionTtlSecs := 1
  tokenHash := fun _ => collaboratorTokenHash

/-- A message, and everything else at its best. -/
def messageAt (now : Int) (members : List (String × Value)) : Input where
  arrival := .message (.text 1 (some (.object members)))
  delivery := .closed
  now := now
  later := now
  granted := true
  shuttingDown := false
  reserved := 0
  reservedForOwner := 0

/-- The collaborator connects, and passes the check before the `ready` frame. -/
def connecting : List (Move World Input) :=
  List.replicate 20 (.own (messageAt 500 [("op", .string "init"),
    ("token", .string collaboratorTokenHash), ("id", .string "vault"), ("keyhash", .string "k"),
    ("encryption_version", .number (.int 3))]))

/-- The owner removes the collaborator. -/
def removing : Move World Input := .other fun w =>
  { w with store := w.store.next (.removeCollaborator 1 someTokenHash "vault" 1) ⟨w.now, w.now⟩ }

/-- The task sends the frame, and then takes one more message. -/
def continuing : List (Move World Input) :=
  List.replicate 8 (.own (messageAt 501 [("op", .string "usernames")]))

/-- The frame that was already under way is the last one. -/
theorem revocation_within_one_frame_of_removal :
    let s := (connecting ++ [removing]).foldl (State.advance (body sharingServer) Label.key)
      (accepted ⟨sharedStore, 500⟩)
    let s' := continuing.foldl (State.advance (body sharingServer) Label.key) s
    s.sent = [.authenticated 2 10] ∧
      s'.sent = [.authenticated 2 10, .ready 0, .close 1008 "Session expired or revoked"] ∧
      framesOfData s' ≤ framesOfData s + 1 := by
  intro s s'
  have hmoves : Run (Transition.Guarded (fun _ _ => True) (Interleaved sharingServer))
      (accepted ⟨sharedStore, 500⟩) ((connecting ++ [removing]).map Move.turn) s :=
    run_advance (fun _ _ => trivial) _ fun _ _ => trivial
  have hafter : Run (Transition.Guarded (fun s _ => ¬access s.key s.store)
      (Interleaved sharingServer)) s (continuing.map Move.turn) s' :=
    run_advance (fun _ _ => trivial) _ (by decide +kernel)
  exact ⟨by decide +kernel, by decide +kernel,
    (revocation_within_one_frame sharingServer hmoves.of_guarded hafter).1⟩

end DataPlane

end Blackglass
