import Blackglass.History
import Blackglass.Lib.Broadcast

/-!
# Connections and the change stream

The part of `server.rs` that keeps clients up to date, as a transition system over any
number of connections.  A connection that initialises reads the version of its vault and
subscribes to the vault's events while it holds the commit-order lock, replays the
database in pages without the lock, and then sends events as it receives them.  A push, a
finished upload or a restore commits and publishes its event under the lock; the
connection that made it then sends events up to its own before it acknowledges.

A connection can be closed between any two of its steps, by its peer, by a deadline, or
because its session is no longer valid (`drop`); only from the commit of a transaction to
the publication of its event there is nothing it could wait for.  The steps of different
connections interleave in every order.
-/

namespace Blackglass

open Broadcast

namespace Stream

def eventCapacity : Nat := 32

def replayPageSize : Int := 16

/-- The event of a committed revision: `text` of the source is the notice, serialized. -/
structure Event where
  uid : Int
  vault : String
  notice : PushNotice
deriving DecidableEq

/-- What a client is sent that matters here. -/
inductive Message where
  | notice (notice : PushNotice)
  | ready (version : Int)
  /-- The answer to a push or a restore that committed the revision `uid`. -/
  | ack (uid : Int)
deriving DecidableEq

/-- Where the task of a connection stands. -/
inductive Phase where
  /-- Before `init`. -/
  | idle
  /-- In `init`, with the lock: before and after it has read the version. -/
  | initLocked
  | initRead
  /-- In the replay loop: the rest of the page it holds, and whether another one follows. -/
  | replay (cursor : Int) (page : List Revision) (more : Bool)
  /-- In the main loop. -/
  | live
  /-- The main loop has taken an event off its queue. -/
  | sending (event : Event)
  /-- A request that adds a revision has the lock. -/
  | committing (request : Request)
  | committed (revision : Revision)
  /-- In `acknowledge_commit`, before its own event. -/
  | waiting (uid : Int)
  | echoing (uid : Int) (event : Event)
  | acknowledging (uid : Int)
  | closed
deriving DecidableEq

namespace Phase

/-- Whether a connection has the commit-order lock. -/
def locked : Phase → Bool
  | initLocked | initRead | committing _ | committed _ => true
  | _ => false

/-- Whether a connection has not subscribed yet. -/
def fresh : Phase → Bool
  | idle | initLocked | initRead => true
  | _ => false

/-- Whether a connection has subscribed and is not closed. -/
def subscribed : Phase → Bool
  | idle | initLocked | initRead | closed => false
  | _ => true

end Phase

structure Connection where
  phase : Phase
  vault : String
  initial : Bool
  /-- The version the client says it has. -/
  version : Int
  /-- `ready_version`. -/
  ready : Int
  receiver : Receiver
  /-- What was sent to the client so far. -/
  sent : List Message
deriving DecidableEq

def Connection.new : Connection :=
  { phase := .idle, vault := "", initial := false, version := 0, ready := 0, receiver := ⟨0⟩,
    sent := [] }

/-- The server.  `published` and `pending` are no data of the program: they record which
revisions were committed, and whether the last one is still to be published. -/
structure State (C : Type*) where
  store : Store
  lock : Option C
  topics : String → List Event
  conns : C → Connection
  published : List Revision
  pending : Option Revision

inductive Action (C : Type*) where
  | init (c : C) (vault : String) (initial : Bool) (version : Int)
  | readVersion (c : C)
  | subscribe (c : C)
  | fetch (c : C)
  | ready (c : C)
  | begin (c : C) (request : Request)
  | transact (c : C) (t : Readings)
  | publish (c : C)
  | receive (c : C)
  | send (c : C)
  | drop (c : C)
  /-- A request of the control plane that takes no vault away. -/
  | control (request : Request) (t : Readings)
  /-- Sign-ins, renewals and sign-outs. -/
  | sessions (rows : List SessionRow)
  | purge (userId : Int) (tokenHash vault : String) (t : Readings)

end Stream

/-- `publish_committed`. -/
def Revision.toEvent (r : Revision) : Stream.Event :=
  { uid := r.uid, vault := r.vaultId, notice := r.toNotice }

namespace Request

/-- Requests that a connection to `vault` makes to add a revision.  A push was admitted on
the size of its notice. -/
def commitsTo (vault : String) : Request → Bool
  | addEmptyRevision revision .. | addFileRevision revision .. =>
    revision.vaultId = vault && serializedNoticeSize revision ≤ maxEventBytes
  | restore _ _ vault' .. => vault' = vault
  | _ => false

def isControl : Request → Bool
  | createVault .. | bindManagedKeyhash .. | renameVault .. | inviteCollaborator ..
  | removeCollaborator .. => true
  | _ => false

end Request

/-- Any other sessions, of users that exist. -/
def Store.withSessions (s : Store) (rows : List SessionRow) : Option Store :=
  if h : (rows.map (·.tokenHash)).Nodup ∧ ∀ r ∈ rows, s.db.hasUser r.userId = true then
    some ⟨{ s.db with sessions := rows },
      { s.constraints with sessionToken := h.1, sessionUser := h.2 }⟩
  else none

namespace Stream

def Message.notice? : Message → Option PushNotice
  | notice n => some n
  | _ => none

def noticesIn (messages : List Message) : List PushNotice := messages.filterMap Message.notice?

namespace Connection

/-- The notices among what was sent. -/
def notices (k : Connection) : List PushNotice := noticesIn k.sent

def sends (k : Connection) (m : Message) : Connection := { k with sent := k.sent ++ [m] }

def goes (k : Connection) (phase : Phase) : Connection := { k with phase := phase }

end Connection

namespace State

variable {C : Type*}

def db (s : State C) : Database := s.store.db

/-- Every revision committed so far. -/
def log (s : State C) : List Revision := s.published ++ s.pending.toList

/-- The queue of a connection: events published and not received, lost ones included. -/
def undelivered (s : State C) (k : Connection) : List Event :=
  k.receiver.undelivered (s.topics k.vault)

/-- The page that the replay loop reads next. -/
def page (s : State C) (k : Connection) (cursor : Int) : List Revision :=
  if k.initial then s.db.initialSnapshotPage k.vault cursor k.ready replayPageSize
  else s.db.listChangesPage k.vault cursor k.ready replayPageSize

variable [DecidableEq C]

@[simps]
def set (s : State C) (c : C) (k : Connection) : State C :=
  { s with conns := Function.update s.conns c k }

/-- The transaction of `c` has committed the revision `r`. -/
def commit (s : State C) (c : C) (store : Store) (r : Revision) : State C :=
  { s.set c ((s.conns c).goes (.committed r)) with store := store, pending := some r }

/-- The transaction of `c` has not added a revision. -/
def retreat (s : State C) (c : C) (store : Store) : State C :=
  { s.set c ((s.conns c).goes .live) with store := store, lock := none }

/-- The event of the revision `r` that `c` has committed goes to all receivers of the vault. -/
def publish (s : State C) (c : C) (r : Revision) : State C :=
  { s.set c ((s.conns c).goes (.waiting r.uid)) with
    topics := Function.update s.topics r.vaultId (s.topics r.vaultId ++ [r.toEvent])
    published := s.published ++ [r]
    pending := none
    lock := none }

/-- One step of the server, or `none` where the action is not possible. -/
def next (s : State C) : Action C → Option (State C)
  | .init c vault initial version =>
    let k := s.conns c
    if k.phase = .idle ∧ s.lock = none ∧ 0 ≤ version then
      some { s.set c { k with
        phase := .initLocked, vault := vault, initial := initial, version := version } with
        lock := some c }
    else none
  | .readVersion c =>
    let k := s.conns c
    if k.phase = .initLocked then
      some (s.set c { k with phase := .initRead, ready := s.db.currentVersion k.vault })
    else none
  | .subscribe c =>
    let k := { s.conns c with receiver := Broadcast.subscribe (s.topics (s.conns c).vault) }
    if k.phase = .initRead then
      if !k.initial ∧ k.ready < k.version then
        some { s.set c (k.goes .closed) with lock := none }
      else
        some { s.set c (k.goes (.replay (if k.initial then 0 else k.version) [] true)) with
          lock := none }
    else none
  | .fetch c =>
    let k := s.conns c
    match k.phase with
    | .replay cursor [] true =>
      let page := s.page k cursor
      some (s.set c (k.goes (.replay cursor page (replayPageSize ≤ page.length))))
    | _ => none
  | .ready c =>
    let k := s.conns c
    match k.phase with
    | .replay _ [] false => some (s.set c ((k.goes .live).sends (.ready k.ready)))
    | _ => none
  | .begin c request =>
    let k := s.conns c
    if k.phase = .live ∧ s.lock = none ∧ request.commitsTo k.vault then
      some { s.set c (k.goes (.committing request)) with lock := some c }
    else none
  | .transact c t =>
    let k := s.conns c
    match k.phase with
    | .committing request =>
      if 0 ≤ t.now ∧ t.now ≤ 9223372036854775807 then
        match s.store.execute request t with
        | .ok (answer, store) =>
          match answer.revision? with
          | some r => some (s.commit c store r)
          | none => some (s.retreat c store)
        | .error _ => some (s.retreat c s.store)
      else none
    | _ => none
  | .publish c =>
    let k := s.conns c
    match k.phase with
    | .committed r =>
      if r.toNotice.text.utf8ByteSize ≤ maxEventBytes then some (s.publish c r)
      else some { s.set c (k.goes .closed) with lock := none }
    | _ => none
  | .receive c =>
    let k := s.conns c
    match k.phase with
    | .live =>
      match k.receiver.receive eventCapacity (s.topics k.vault) with
      | .empty => none
      | .lagged => some (s.set c (k.goes .closed))
      | .value event r => some (s.set c { k with phase := .sending event, receiver := r })
    | .waiting uid =>
      match k.receiver.receive eventCapacity (s.topics k.vault) with
      | .empty => none
      | .lagged => some (s.set c (k.goes .closed))
      | .value event r => some (s.set c { k with phase := .echoing uid event, receiver := r })
    | _ => none
  | .send c =>
    let k := s.conns c
    match k.phase with
    | .replay _ (r :: page) more =>
      some (s.set c ((k.goes (.replay r.uid page more)).sends (.notice r.toNotice)))
    | .sending event => some (s.set c ((k.goes .live).sends (.notice event.notice)))
    | .echoing uid event =>
      let phase :=
        if event.uid = uid then .acknowledging uid
        else if uid < event.uid then .closed
        else .waiting uid
      some (s.set c ((k.goes phase).sends (.notice event.notice)))
    | .acknowledging uid => some (s.set c ((k.goes .live).sends (.ack uid)))
    | _ => none
  | .drop c =>
    let k := s.conns c
    match k.phase with
    | .committed _ => none
    | phase =>
      some { s.set c (k.goes .closed) with lock := if phase.locked then none else s.lock }
  | .control request t =>
    if request.isControl then some { s with store := s.store.next request t } else none
  | .sessions rows => (s.store.withSessions rows).map fun store => { s with store := store }
  | .purge userId tokenHash vault t =>
    if s.lock = none then
      some { s with store := s.store.next (.purge userId tokenHash vault) t }
    else none

/-- A server that has just started on a database, with the revisions committed before. -/
def start (store : Store) (log : List Revision) : State C :=
  { store := store, lock := none, topics := fun _ => [], conns := fun _ => .new,
    published := log, pending := none }

end State

end Stream

end Blackglass
