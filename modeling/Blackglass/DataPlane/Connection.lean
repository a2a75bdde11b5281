import Blackglass.DataPlane.Reads
import Blackglass.Stream.System
import Blackglass.Lib.Task

/-!
# The task of a data connection

`socket_loop` of `server.rs` with everything it calls, as code over the database and the
clock.  Each call of `db_task` is one transaction, and between two of them other tasks may
have changed the database.  What else the task learns comes from outside as an `Input`: the
messages of its client, the events of its vault, whether it gets a permit, a reservation or a
database worker in time, and what others have reserved.

The variables of the task that outlive a message are arguments of its labels.  A `Peer` is an
authenticated connection; it can only be built from a session that `renew_session_for_vault`
has found, and what it is about to upload is for its own vault and user.

Everything that can end the task at any time without a word (a failed write, a lost client, a
database worker that is not free in time) is a step of `Task.Step`.
-/

namespace Blackglass

open Json Outcome

namespace DataPlane

open Task (Code)

def maxLargeResponseBytes : Nat := 8 * 1024 * 1024

def deletedPageSize : Int := 64

def storageQuotaClientError : String := "Storage limit reached"

/-- The settings of the server, and its hash function for tokens. -/
structure Server where
  config : Config
  sessionTtlSecs : Int
  tokenHash : String → String

/-! ## What a task shares, takes in and sends out -/

structure World where
  store : Store
  now : Int

inductive ClientMessage where
  /-- The text's size, and its value if it is JSON. -/
  | text (size : Nat) (value : Option Value)
  | binary (bytes : Blob)
  | ping (payload : Blob)
  | pong
  | close

/-- What `recv` on the receiver of a vault's events returns. -/
inductive Delivery where
  | event (event : Stream.Event)
  | invalidated (vault : String)
  | lagged
  | closed

/-- The other branches of the loop's `select!`. -/
inductive Cutoff where
  | shutdown
  | authenticationDeadline
  | cancellation
  | uploadIdle
  | peerIdle
deriving DecidableEq

inductive Arrival where
  | message (message : ClientMessage)
  | event (delivery : Delivery)
  /-- `session_revalidation.tick()`. -/
  | revalidation
  | cutoff (cutoff : Cutoff)

structure Input where
  arrival : Arrival
  delivery : Delivery
  /-- The clock, and the clock a little later. -/
  now : Int
  later : Int
  /-- Whether a permit, a reservation or a database worker is to be had. -/
  granted : Bool
  shuttingDown : Bool
  /-- What uploads in flight have reserved, of all owners and of the vault's. -/
  reserved : Int
  reservedForOwner : Int

inductive Frame where
  | authenticated (userId perFileMax : Int)
  | ready (version : Int)
  | notice (notice : PushNotice)
  | pullHeader (size pieces : Int) (deleted : Bool) (hash : String)
  | piece (bytes : Blob)
  | history (items : List PushNotice) (more : Bool)
  | deleted (text : String)
  | usernames (names : List (Int × String))
  | size (size limit vaultSize : Int)
  /-- `{"res":"ok"}`, with the `uid` of a conditional push. -/
  | ack (uid : Option Int)
  | next
  | pong
  | capabilities
  | controlPong (payload : Blob)
  /-- `{"err":..}`. -/
  | err (message : String)
  /-- `{"res":"err",..}`. -/
  | failure (code : Option String) (message : String)
  | close (code : Nat) (reason : String)
deriving DecidableEq

/-- The frames that tell something about a vault. -/
def Frame.carriesData : Frame → Bool
  | ready _ | notice _ | pullHeader .. | piece _ | history .. | deleted _ | usernames _ | size ..
  | ack _ => true
  | authenticated .. | next | pong | capabilities | controlPong _ | err _ | failure .. | close .. =>
    false

/-! ## Authenticated connections -/

/-- An upload in progress, with the content of the staged file. -/
structure Pending where
  revision : NewRevision
  pieces : Int
  bytes : Int
  file : Blob

structure Peer where
  session : Session
  vaultOwnerUserId : Int
  pending : Option Pending
  token_size : session.tokenHash.utf8ByteSize = 64
  vault_nonempty : session.vault.isEmpty = false
  pending_own : ∀ p ∈ pending,
    p.revision.vaultId = session.vault ∧ p.revision.userId = session.userId

namespace Peer

def authenticated (vaultOwnerUserId : Int) (session : Session)
    (htoken : session.tokenHash.utf8ByteSize = 64) (hvault : session.vault.isEmpty = false) :
    Peer where
  session := session
  vaultOwnerUserId := vaultOwnerUserId
  pending := none
  token_size := htoken
  vault_nonempty := hvault
  pending_own := fun _ h => nomatch h

def idle (peer : Peer) : Peer where
  session := peer.session
  vaultOwnerUserId := peer.vaultOwnerUserId
  pending := none
  token_size := peer.token_size
  vault_nonempty := peer.vault_nonempty
  pending_own := fun _ h => nomatch h

def awaiting (peer : Peer) (pending : Pending)
    (hown : pending.revision.vaultId = peer.session.vault ∧
      pending.revision.userId = peer.session.userId) : Peer where
  session := peer.session
  vaultOwnerUserId := peer.vaultOwnerUserId
  pending := some pending
  token_size := peer.token_size
  vault_nonempty := peer.vault_nonempty
  pending_own := fun p h => by
    cases h
    exact hown

end Peer

/-- A push that is accepted is for the vault and the user of its connection. -/
theorem beginPush_own {config : Config} {session : Session} {v : Value} {revision : NewRevision}
    (h : beginPush config session v = .ok revision) :
    revision.vaultId = session.vault ∧ revision.userId = session.userId := by
  have hvalid := (beginPush_ok h).2.1
  exact ⟨hvalid.vaultId, hvalid.userId⟩

/-- A session that was renewed for a vault has the shape that the checks ask for. -/
theorem shape_of_renewSessionForVault {db : Database} {hash vault : String} {ttlSecs now : Int}
    (h : (db.renewSessionForVault hash vault ttlSecs now).1.isSome = true) :
    hash.utf8ByteSize = 64 ∧ vault.isEmpty = false := by
  unfold Database.renewSessionForVault at h
  split at h
  · cases h
  · rename_i hshape
    simp only [ne_eq, not_or, not_not, Bool.not_eq_true] at hshape
    exact hshape

/-- Where the code of a task begins, and where it comes back to. -/
inductive Label where
  /-- The loop before authentication. -/
  | hello
  /-- The loop. -/
  | loop (peer : Peer)
  /-- The replay loop of `init`. -/
  | replay (peer : Peer) (initial : Bool) (cursor readyVersion : Int)
  /-- The loop of `pull`. -/
  | pieces (peer : Peer) (uid offset size : Int)
  /-- The loop of `deleted`, with the response so far. -/
  | deletedPages (peer : Peer) (suppress : Bool) (after : Int) (response : String) (first : Bool)
  /-- The loop of `acknowledge_commit`. -/
  | acknowledge (peer : Peer) (committed : Stream.Event) (conditional : Bool)

/-- The code of a connection's task. -/
abbrev Program := Code World Input Frame Label

/-! ## Steps that all handlers are made of -/

def close (code : Nat) (reason : String) : Program := .send (.close code reason) .stop

/-- The answer to a message, and back to the loop. -/
def reply (peer : Peer) (frame : Frame) : Program := .send frame (.goto (.loop peer))

/-- A look at the clock. -/
def atTime (k : Input → Program) : Program :=
  .input fun i => .transact (fun w => { w with now := i.now }) fun _ => k i

/-- `session_active`, with what follows if it is and with which reason it is closed if not. -/
def check (peer : Peer) (reason : String) (k : Program) : Program :=
  atTime fun i => .read fun w =>
    if i.granted &&
        w.store.db.validSessionForVault peer.session.tokenHash peer.session.vault w.now then k
    else close 1008 reason

def World.renewSessionForVault (w : World) (hash vault : String) (ttlSecs : Int) : World :=
  { w with store := ⟨(w.store.db.renewSessionForVault hash vault ttlSecs w.now).2, by
      unfold Database.renewSessionForVault
      split
      · exact w.store.constraints
      · split
        · exact w.store.constraints
        · simp only
          split
          · exact w.store.constraints
          · exact w.store.constraints.renewSession _ _ _ _⟩ }

/-- `renew_active_session`. -/
def renewActiveSession (server : Server) (peer : Peer) (reason : String) (k : Program) : Program :=
  atTime fun i =>
    if i.granted then
      .transact
        (·.renewSessionForVault peer.session.tokenHash peer.session.vault server.sessionTtlSecs)
        fun w =>
          if (w.store.db.renewSessionForVault peer.session.tokenHash peer.session.vault
              server.sessionTtlSecs w.now).1.isSome then k
          else close 1008 reason
    else close 1008 reason

/-- `if shutting_down(s) { return Ok(()) }`; a wait for memory or for a pull permit ends in the
same way. -/
def unlessShuttingDown (peer : Peer) (k : Program) : Program :=
  .input fun i => if i.shuttingDown then .goto (.loop peer) else k

def World.commit (w : World) (request : Request) (later : Int) : World :=
  match w.store.execute request ⟨w.now, later⟩ with
  | .ok (_, store) => { w with store := store }
  | .error _ => w

def World.answer (w : World) (request : Request) (later : Int) : Except DbError Answer :=
  (w.store.execute request ⟨w.now, later⟩).map (·.1)

/-- The transaction of a request. -/
def commit (request : Request) (k : Except DbError Answer → Program) : Program :=
  atTime fun i => .transact (·.commit request i.later) fun w => k (w.answer request i.later)

/-! ## Replay -/

/-- One page of the replay. -/
def sendPage (peer : Peer) : List Revision → Program → Program
  | [], k => k
  | r :: page, k =>
    unlessShuttingDown peer <| check peer "Authorization revoked" <|
      unlessShuttingDown peer <| .send (.notice r.toNotice) (sendPage peer page k)

/-- The end of `init`. -/
def sendReady (peer : Peer) (readyVersion : Int) : Program :=
  check peer "Authorization revoked" (reply peer (.ready readyVersion))

def replayPage (db : Database) (vault : String) (initial : Bool) (cursor readyVersion : Int) :
    List Revision :=
  if initial then db.initialSnapshotPage vault cursor readyVersion Stream.replayPageSize
  else db.listChangesPage vault cursor readyVersion Stream.replayPageSize

def replay (peer : Peer) (initial : Bool) (cursor readyVersion : Int) : Program :=
  unlessShuttingDown peer <| check peer "Session expired or revoked" <| .read fun w =>
    let page := replayPage w.store.db peer.session.vault initial cursor readyVersion
    match page.getLast? with
    | none => sendReady peer readyVersion
    | some last =>
      sendPage peer page <|
        if (page.length : Int) < Stream.replayPageSize then sendReady peer readyVersion
        else .goto (.replay peer initial last.uid readyVersion)

/-! ## Authentication -/

/-- `token_has_session_shape`. -/
def tokenHasSessionShape (token : String) : Bool :=
  token.utf8ByteSize = 64 && token.toList.all fun c => c.isDigit || ('a' ≤ c && c ≤ 'f')

/-- The version that a client says it has: absent, or a number that clients can represent. -/
def initVersion (v : Value) : Option Int :=
  match v.get "version" with
  | none => some 0
  | some value => value.asI64.filter jsSafeNonnegative

def unableToAuthenticate : Program :=
  .send (.failure none "Unable to authenticate") (.goto .hello)

def vaultNotFound : Program :=
  .send (.failure none "Vault not found") (close 1008 "Vault not found")

/-- `init` from where the session is authenticated to the replay. -/
def welcome (server : Server) (peer : Peer) (initial : Bool) (version : Int) : Program :=
  .read fun w =>
    let readyVersion := w.store.db.currentVersion peer.session.vault
    if !initial && readyVersion < version then
      .send (.failure none ("Client Sync version is ahead of the server; reconnect this vault " ++
        "as a fresh client after restore"))
        (close 1008 "Client Sync version is ahead of the server")
    else
      .send (.authenticated peer.session.userId server.config.perFileMax)
        (.goto (.replay peer initial (if initial then 0 else version) readyVersion))

/-- `init` of a session that has been found to have access to the vault. -/
def authenticate (server : Server) (v : Value) (context : AuthContext) (vault : VaultRow) :
    Program :=
  atTime fun _ =>
    .transact (·.renewSessionForVault context.tokenHash vault.id server.sessionTtlSecs) fun w =>
      if h : (w.store.db.renewSessionForVault context.tokenHash vault.id server.sessionTtlSecs
          w.now).1.isSome = true then
        match initVersion v with
        | none =>
          .send (.failure none "Invalid Sync version") (close 1008 "Invalid Sync version")
        | some version =>
          .input fun i =>
            if i.granted then
              welcome server
                (.authenticated vault.ownerUserId
                  (.init context.tokenHash context.userId vault.id v)
                  (shape_of_renewSessionForVault h).1 (shape_of_renewSessionForVault h).2)
                (((v.get "initial").bind Value.asBool).getD false) version
            else
              .send (.failure none "Account connection capacity reached; retry shortly")
                (close 1013 "Account connection capacity reached")
      else unableToAuthenticate

def initToken (v : Value) : String := ((v.get "token").bind Value.asStr).getD ""

def initId (v : Value) : String := ((v.get "id").bind Value.asStr).getD ""

/-- Who an `init` message is from. -/
def initContext (server : Server) (w : World) (v : Value) : Option AuthContext :=
  if tokenHasSessionShape (initToken v) then
    w.store.db.authContextHash (server.tokenHash (initToken v)) w.now
  else none

/-- `init` of a valid session, with the vault that was found. -/
def initVault (server : Server) (v : Value) (context : AuthContext) :
    Option (VaultRow × VaultAccess) → Program
  | none => vaultNotFound
  | some (vault, access) =>
    if access.isCollaborator && !server.config.sharingAllowedForOwner vault.ownerUserId then
      vaultNotFound
    else if (v.get "keyhash").bind Value.asStr ≠ vault.keyhash ∨
        (v.get "encryption_version").bind Value.asI64 ≠ some vault.encryptionVersion then
      unableToAuthenticate
    else authenticate server v context vault

/-- `init`.  The source also asks whether the identity is retired, but only of a session that
is valid, and answers `Vault not found` to that one anyway. -/
def init (server : Server) (v : Value) : Program :=
  atTime fun _ => .read fun w =>
    match initContext server w v with
    | none => unableToAuthenticate
    | some context =>
      initVault server v context (w.store.db.findAuthorizedVault context.userId (initId v))

/-! ## Commits -/

/-- `publish_committed`, and what its caller does then. -/
def publishCommitted (peer : Peer) (conditional : Bool) (r : Revision) : Program :=
  if maxEventBytes < r.toNotice.text.utf8ByteSize then .stop
  else unlessShuttingDown peer (.goto (.acknowledge peer r.toEvent conditional))

def acknowledgeCommit (peer : Peer) (committed : Stream.Event) (conditional : Bool) : Program :=
  .input fun i =>
    match i.delivery with
    | .invalidated vault =>
      if vault = committed.vault then close 1008 "Vault deleted or replaced"
      else .goto (.acknowledge peer committed conditional)
    | .event event =>
      if event.vault = committed.vault then
        unlessShuttingDown peer <| check peer "Session expired or revoked" <|
          .send (.notice event.notice) <|
            if event.uid = committed.uid then
              check peer "Session expired or revoked" <|
                reply peer (.ack (if conditional then some committed.uid else none))
            else if committed.uid < event.uid then .stop
            else .goto (.acknowledge peer committed conditional)
      else .goto (.acknowledge peer committed conditional)
    | .lagged => close 1013 "Change stream lagged; reconnect to resume"
    | .closed => .stop

def conditionalWriteConflict (peer : Peer) : Program :=
  reply peer (.failure (some "conditional_write_conflict")
    "Conditional write conflict; catch up before retrying")

/-- What the two kinds of pushes make of their commit; they differ where the quota is
exceeded. -/
def afterPush (peer : Peer) (revision : NewRevision) (quotaExceeded : Program) :
    Except DbError Answer → Program
  | .ok (.stored r) => publishCommitted peer revision.expectedVersion.isSome r
  | .error .storageQuotaExceeded => quotaExceeded
  | .error .conditionalWriteConflict => conditionalWriteConflict peer
  | _ => .stop

/-- `begin_push`. -/
def push (server : Server) (peer : Peer) (v : Value) : Program :=
  match h : beginPush server.config { peer.session with pending := peer.pending.isSome } v with
  | .error message => reply peer (.err message)
  | .ok revision =>
    if revision.folder || revision.deleted || revision.pieces = 0 then
      commit (pushRequest server.config peer.session revision []) <|
        afterPush peer revision (reply peer (.err storageQuotaClientError))
    else
      .input fun uploads => .input fun userUploads => .input fun reservation =>
        if !uploads.granted then
          reply peer (.err "Server upload capacity reached; retry shortly")
        else if !userUploads.granted then
          reply peer (.err "Account upload capacity reached; retry shortly")
        else if !reservation.granted then reply peer (.err storageQuotaClientError)
        else
          have hown := beginPush_own h
          reply (peer.awaiting ⟨revision, 0, 0, []⟩ hown) .next

def uploadChunk (server : Server) (peer : Peer) (bytes : Blob) : Program :=
  match h : peer.pending with
  | none => close 1008 "Unexpected binary message"
  | some p =>
    have hown := peer.pending_own p h
    let counted : Pending := { p with pieces := p.pieces + 1, bytes := p.bytes + bytes.length }
    if revisionPieceSize < bytes.length then close 1009 "Upload piece too large"
    else if p.revision.pieces < counted.pieces ∨ p.revision.size < counted.bytes then
      close 1009 "Upload exceeds declared size"
    else
      unlessShuttingDown (peer.awaiting counted hown) <|
        let written : Pending := { counted with file := p.file ++ bytes }
        if written.pieces < p.revision.pieces then reply (peer.awaiting written hown) .next
        else if written.bytes ≠ p.revision.size then
          close 1008 "Upload size does not match metadata"
        else
          commit (.addFileRevision p.revision peer.session.tokenHash written.file
              server.config.storageQuotaBytes server.config.storageQuotaBytesPerOwner) <|
            afterPush peer.idle p.revision (close 1008 storageQuotaClientError)

def restoreRevision (server : Server) (peer : Peer) (v : Value) : Program :=
  .input fun i =>
    match restore server.config peer.session i.reserved i.reservedForOwner v with
    | .error message => reply peer (.err message)
    | .ok request =>
      commit request fun
        | .ok (.restored (some r)) => publishCommitted peer false r
        | .ok (.restored none) => reply peer (.err "Revision not found")
        | .error (.bail "restored revision metadata exceeds the bounded event size") =>
          reply peer (.err "Restore metadata is too large")
        | .error .storageQuotaExceeded => reply peer (.err storageQuotaClientError)
        | _ => .stop

def purge (peer : Peer) : Program :=
  commit (.purge peer.session.userId peer.session.tokenHash peer.session.vault) fun
    | .ok _ => reply peer (.ack none)
    | .error _ => .stop

/-! ## Reads -/

/-- One piece of a pull. -/
def pullPieces (server : Server) (peer : Peer) (uid offset size : Int) : Program :=
  if offset < size then
    unlessShuttingDown peer <| check peer "Session expired or revoked" <|
      unlessShuttingDown peer <| .read fun w =>
        let length := min (size - offset) revisionPieceSize
        match w.store.db.contentChunk uid offset length with
        | .error _ => .stop
        | .ok chunk =>
          check peer "Authorization revoked" <| .send (.piece chunk) <|
            renewActiveSession server peer "Authorization revoked" <|
              .goto (.pieces peer uid (offset + length) size)
  else .goto (.loop peer)

/-- `pull`, of a revision that has been found in the vault. -/
def pullFound (peer : Peer) (uid : Int) (info : PullInfo) : Program :=
  check peer "Authorization revoked" <|
    if info.deleted || info.folder || !info.hasContent then
      reply peer (.pullHeader 0 0 info.deleted info.hash)
    else
      .send (.pullHeader info.size info.pieces false info.hash)
        (.goto (.pieces peer uid 0 info.size))

/-- `pull`, of what was found: a `uid` of another vault is as good as none. -/
def pullAnswer (peer : Peer) (uid : Int) : Option PullInfo → Program
  | none => reply peer (.err "Revision not found")
  | some info =>
    if peer.session.vault = info.vaultId then pullFound peer uid info
    else reply peer (.err "Revision not found")

def pull (peer : Peer) (v : Value) : Program :=
  match (v.get "uid").bind Value.asI64 with
  | none => reply peer (.err "Revision not found")
  | some uid => .read fun w => pullAnswer peer uid (w.store.db.pullInfo uid)

/-- `notice_item`, as text: a notice without its `op`, by way of a map. -/
def noticeItem (n : PushNotice) : String := encodeMap n.members.tail

def historyText (items : List PushNotice) (more : Bool) : String :=
  encodeObject [("items", encodeArray (items.map noticeItem)), ("more", encodeBool more)]

def history (peer : Peer) (v : Value) : Program :=
  unlessShuttingDown peer <|
    match ((v.get "path").bind Value.asStr).filter fun path => (bounded path 16384).isSome with
    | none => reply peer (.err "Invalid history path")
    | some path =>
      .read fun w =>
        let all := w.store.db.historyPage peer.session.vault path
          ((v.get "last").bind Value.asI64) 101
        let items := (all.take 100).map (·.toNotice)
        let more := 100 < all.length
        check peer "Authorization revoked" <|
          if maxLargeResponseBytes < (historyText items more).utf8ByteSize then
            reply peer (.err "History response exceeds the safe wire limit")
          else reply peer (.history items more)

/-- The items of one page, appended to the response while it stays within the limit. -/
def appendItems (response : String) (first : Bool) : List Revision → Option (String × Bool)
  | [] => some (response, first)
  | r :: page =>
    let encoded := noticeItem r.toNotice
    if maxLargeResponseBytes <
        response.utf8ByteSize + (if first then 0 else 1) + encoded.utf8ByteSize + 2 then none
    else appendItems (response ++ (if first then "" else ",") ++ encoded) false page

def deletedPages (peer : Peer) (suppress : Bool) (after : Int) (response : String) (first : Bool) :
    Program :=
  .read fun w =>
    let page := w.store.db.listDeletedPage peer.session.vault suppress after deletedPageSize
    match appendItems response first page with
    | none =>
      reply peer (.err
        ("Deleted response exceeds the safe wire limit; ask the server operator " ++
        "to stop the service, run `blackglass-server purge-deleted <database> <vault-id> " ++
        "<backup>`, and retry"))
    | some (response, first) =>
      if (page.length : Int) < deletedPageSize then
        check peer "Authorization revoked" (reply peer (.deleted (response ++ "]\x7d")))
      else
        .goto (.deletedPages peer suppress ((page.getLast?.map (·.uid)).getD after) response
          first)

def deleted (peer : Peer) (v : Value) : Program :=
  unlessShuttingDown peer <|
    .goto (.deletedPages peer ((v.get "suppressrenames").bind Value.asBool = some true) 0
      "\x7b\"items\":[" true)

def effectiveStorageLimit (ownerUsed globalUsed ownerReserved globalReserved ownerLimit
    globalLimit : Int) : Int :=
  let globalFree := max (saturate (saturate (globalLimit - globalUsed) - globalReserved)) 0
  min (max (saturate (ownerLimit - ownerReserved)) 0) (saturate (ownerUsed + globalFree))

def size (server : Server) (peer : Peer) : Program :=
  .input fun i => .read fun w =>
    match w.store.db.storedCiphertextSizeForVaultOwner peer.session.vault,
      w.store.db.storedCiphertextSize with
    | some used, .ok globalUsed =>
      let limit := effectiveStorageLimit used globalUsed i.reservedForOwner i.reserved
        server.config.storageQuotaBytesPerOwner server.config.storageQuotaBytes
      check peer "Authorization revoked" <|
        reply peer (.size used limit (w.store.db.vaultSize peer.session.vault))
    | _, _ => .stop

def usernames (peer : Peer) : Program :=
  .read fun w =>
    check peer "Authorization revoked" <|
      reply peer (.usernames (w.store.db.usernamesForVault peer.session.vault))

/-! ## The loop -/

/-- The `op` of a message. -/
def operation (v : Value) : String := ((v.get "op").bind Value.asStr).getD ""

def dispatch (server : Server) (peer : Peer) (v : Value) : Program :=
  match operation v with
  | "ping" => reply peer .pong
  | "capabilities" => reply peer .capabilities
  | "size" => size server peer
  | "usernames" => usernames peer
  | "push" => push server peer v
  | "pull" => pull peer v
  | "deleted" => deleted peer v
  | "history" => history peer v
  | "restore" => restoreRevision server peer v
  | "purge" => purge peer
  | op => reply peer (.err ("Unsupported operation: " ++ op))

/-- `handle_message` of an authenticated session. -/
def handleMessage (server : Server) (peer : Peer) : ClientMessage → Program
  | .text size value =>
    if 64 * 1024 < size then close 1009 "JSON message too large"
    else
      match value with
      | none => reply peer (.failure none "Invalid JSON")
      | some v => check peer "Session expired or revoked" (dispatch server peer v)
  | .binary bytes => check peer "Authentication required" (uploadChunk server peer bytes)
  | .ping payload => check peer "Authentication required" (reply peer (.controlPong payload))
  | .pong => .goto (.loop peer)
  | .close => .stop

/-- `handle_message` before that. -/
def handleGreeting (server : Server) : ClientMessage → Program
  | .text size value =>
    if 64 * 1024 < size then close 1009 "JSON message too large"
    else
      match value with
      | none => close 1008 "Authentication required"
      | some v =>
        if operation v ≠ "init" then close 1008 "Authentication required"
        else init server v
  | .binary _ | .ping _ | .pong => close 1008 "Authentication required"
  | .close => .stop

/-- The turn of the loop that a message starts: every one renews the session first. -/
def incoming (server : Server) (peer : Peer) (message : ClientMessage) : Program :=
  renewActiveSession server peer "Session expired or revoked" (handleMessage server peer message)

def delivered (peer : Peer) : Delivery → Program
  | .invalidated vault =>
    if vault = peer.session.vault then close 1008 "Vault deleted or replaced"
    else .goto (.loop peer)
  | .event event =>
    if event.vault = peer.session.vault then
      check peer "Session expired or revoked" (reply peer (.notice event.notice))
    else .goto (.loop peer)
  | .lagged => close 1013 "Change stream lagged; reconnect to resume"
  | .closed => .stop

/-- The branches of `select!` that close the connection, where their guards let them. -/
def Cutoff.code : Cutoff → Option Peer → Program
  | shutdown, _ => close 1001 "Server shutting down"
  | authenticationDeadline, none => close 1008 "Authentication deadline exceeded"
  | cancellation, some _ => close 1008 "Authorization revoked"
  | uploadIdle, some peer =>
    if peer.pending.isSome then close 1008 "Upload idle timeout exceeded" else .goto (.loop peer)
  | peerIdle, some peer =>
    if peer.pending.isNone then close 1001 "Peer idle timeout; reconnect to resume"
    else .goto (.loop peer)
  | authenticationDeadline, some peer => .goto (.loop peer)
  | cancellation, none | uploadIdle, none | peerIdle, none => .goto .hello

/-- `socket_loop`. -/
def socketLoop (server : Server) (peer : Peer) : Program :=
  .input fun i =>
    match i.arrival with
    | .message .close => .stop
    | .message message => incoming server peer message
    | .event delivery => delivered peer delivery
    | .revalidation => check peer "Session expired or revoked" (.goto (.loop peer))
    | .cutoff cutoff => cutoff.code (some peer)

/-- `socket_loop` until a session is authenticated, when it polls no events and no interval. -/
def greetingLoop (server : Server) : Program :=
  .input fun i =>
    match i.arrival with
    | .message message => handleGreeting server message
    | .event _ | .revalidation => .goto .hello
    | .cutoff cutoff => cutoff.code none

def body (server : Server) : Label → Program
  | .hello => greetingLoop server
  | .loop peer => socketLoop server peer
  | .replay peer initial cursor readyVersion => replay peer initial cursor readyVersion
  | .pieces peer uid offset size => pullPieces server peer uid offset size
  | .deletedPages peer suppress after response first =>
    deletedPages peer suppress after response first
  | .acknowledge peer committed conditional => acknowledgeCommit peer committed conditional

end DataPlane

end Blackglass
