import Blackglass.DataPlane.Denial
import Blackglass.Lib.Budget
import Blackglass.Quota.Scope
import Blackglass.Vaults.Migration

/-!
# Admission of uploads

An upload is let in when its size fits beside what is stored and what other uploads have
reserved, under both limits.  Its bytes arrive later and are committed later still; meanwhile
other uploads are let in, committed or given up, revisions are restored and purged, and vaults
are deleted and migrated.  Reservations are made and commits run under the commit-order lock.
The reservation of an upload that is given up is dropped without it, and a restore, which
reserves nothing, runs with limits lowered by what is reserved.

For each limit the server keeps an account in the sense of `Budget`: what is stored is spent,
and the uploads hold reservations.  Every step is a step of that account or leaves it as it was
(`Step.refines`).

As for migrations, a vault gets an id that no vault has had: ids are drawn at random.
-/

namespace Blackglass

open Rows Outcome Transition Json

namespace Quota

/-- `Pending`, as far as the limits are concerned. -/
structure Pending where
  revision : NewRevision
  storageReservation : StorageReservation

/-- What `init` has found out about a connection. -/
structure Connection where
  session : Session
  vaultOwnerUserId : Int

namespace Admission

variable {C : Type*}

/-! ## The system -/

/-- The handler that holds the lock, and what it does next. -/
inductive Holder (C : Type*) where
  /-- `begin_push` reads what is stored, -/
  | stored (c : C) (revision : NewRevision)
  /-- and what is stored for the owner, -/
  | storedForOwner (c : C) (revision : NewRevision) (committedGlobal : Int)
  /-- and tries to reserve. -/
  | reserve (c : C) (revision : NewRevision) (committedGlobal committedOwner : Int)
  /-- `upload_chunk` commits, -/
  | commit (c : C) (file : Blob)
  /-- and drops the reservation. -/
  | drop (c : C)
  /-- `restore` reads what is reserved, -/
  | reserved (c : C) (v : Value)
  /-- and what is reserved for the owner, -/
  | reservedForOwner (c : C) (v : Value) (reservedGlobal : Int)
  /-- and commits. -/
  | restore (c : C) (v : Value) (reservedGlobal reservedOwner : Int)
  /-- The other handlers run one transaction. -/
  | request (request : Request)
  | finished

namespace Holder

/-- The connection whose handler it is. -/
def connection? : Holder C → Option C
  | stored c _ | storedForOwner c .. | reserve c .. | commit c _ | drop c | reserved c _
  | reservedForOwner c .. | restore c .. => some c
  | request _ | finished => none

/-- The connection whose upload is committed, or has failed, while its reservation still
counts. -/
def spender? : Holder C → Option C
  | drop c => some c
  | _ => none

/-- Handlers return early on errors, but not between a commit and the drop of its
reservation. -/
def mayReturn : Holder C → Bool
  | commit .. | drop _ => false
  | _ => true

end Holder

structure State (C : Type*) where
  store : Store
  reservations : StorageReservations
  connections : C → Option Connection
  pending : C → Option Pending
  lock : Option (Holder C)
  /-- The ids that some vault was made with. -/
  used : List String

/-- The server after its start. -/
def State.start (store : Store) : State C where
  store := store
  reservations := .empty
  connections := fun _ => none
  pending := fun _ => none
  lock := none
  used := store.db.vaults.map (·.id)

def State.spender? (s : State C) : Option C := s.lock.bind Holder.spender?

/-- The connection is not busy with the lock in its hands. -/
def State.Free (s : State C) (c : C) : Prop := s.lock.bind Holder.connection? ≠ some c

/-- A push that is committed at once. -/
def metadataOnly (revision : NewRevision) : Bool :=
  revision.folder || revision.deleted || revision.pieces = 0

inductive Action (C : Type*) where
  | connect (c : C)
  | push (c : C) (v : Value)
  /-- The last frame of an upload. -/
  | finish (c : C)
  /-- Disconnection, timeout, a frame that does not fit, or a failed write. -/
  | abandon (c : C)
  | restore (c : C) (v : Value)
  | lock (request : Request)
  /-- The holder of the lock goes on. -/
  | proceed
  | transact (t : Readings)
  | unlock
  | unlocked (request : Request) (t : Readings)
  | account (op : AccountOperation) (now : Int)

section

variable [DecidableEq C]

inductive Step (phc : PhcParser) (config : Config) (s : State C) : Action C → State C → Prop where
  | connect {c : C} {session : Session} {ownerUserId : Int} :
      s.pending c = none → s.Free c →
      s.store.db.vaultOwnerUserId session.vault = some ownerUserId →
      Step phc config s (.connect c)
        { s with connections := Function.update s.connections c (some ⟨session, ownerUserId⟩) }
  | pushEmpty {c : C} {connection : Connection} {v : Value} {revision : NewRevision} :
      s.lock = none → s.connections c = some connection →
      beginPush config { connection.session with pending := (s.pending c).isSome } v =
        .ok revision →
      metadataOnly revision = true →
      Step phc config s (.push c v)
        { s with lock := some (.request (pushRequest config connection.session revision [])) }
  | pushFile {c : C} {connection : Connection} {v : Value} {revision : NewRevision} :
      s.lock = none → s.connections c = some connection →
      beginPush config { connection.session with pending := (s.pending c).isSome } v =
        .ok revision →
      metadataOnly revision = false →
      Step phc config s (.push c v) { s with lock := some (.stored c revision) }
  | stored {c : C} {revision : NewRevision} {committedGlobal : Int} :
      s.lock = some (.stored c revision) → s.store.db.storedCiphertextSize = .ok committedGlobal →
      Step phc config s .proceed
        { s with lock := some (.storedForOwner c revision committedGlobal) }
  | storedForOwner {c : C} {connection : Connection} {revision : NewRevision}
        {committedGlobal : Int} :
      s.lock = some (.storedForOwner c revision committedGlobal) →
      s.connections c = some connection →
      Step phc config s .proceed
        { s with
          lock := some (.reserve c revision committedGlobal
            (s.store.db.ownerStoredCiphertextSize connection.vaultOwnerUserId)) }
  | reserve {c : C} {connection : Connection} {revision : NewRevision}
        {committedGlobal committedOwner : Int} {reservation : StorageReservation}
        {reservations : StorageReservations} :
      s.lock = some (.reserve c revision committedGlobal committedOwner) →
      s.connections c = some connection →
      s.reservations.tryReserve committedGlobal committedOwner connection.vaultOwnerUserId
        revision.size config.storageQuotaBytes config.storageQuotaBytesPerOwner =
          .ok (some (reservation, reservations)) →
      Step phc config s .proceed
        { s with
          reservations := reservations
          pending := Function.update s.pending c (some ⟨revision, reservation⟩)
          lock := some .finished }
  | refuse {c : C} {connection : Connection} {revision : NewRevision}
        {committedGlobal committedOwner : Int} :
      s.lock = some (.reserve c revision committedGlobal committedOwner) →
      s.connections c = some connection →
      s.reservations.tryReserve committedGlobal committedOwner connection.vaultOwnerUserId
        revision.size config.storageQuotaBytes config.storageQuotaBytesPerOwner = .ok none →
      Step phc config s .proceed { s with lock := some .finished }
  | finish {c : C} {p : Pending} (file : Blob) :
      s.lock = none → s.pending c = some p →
      Step phc config s (.finish c) { s with lock := some (.commit c file) }
  | commit {c : C} {connection : Connection} {p : Pending} {file : Blob} {t : Readings}
        {store' : Store} :
      s.lock = some (.commit c file) → s.connections c = some connection → s.pending c = some p →
      s.store.Step (.addFileRevision p.revision connection.session.tokenHash file
        config.storageQuotaBytes config.storageQuotaBytesPerOwner, t) store' →
      Step phc config s (.transact t) { s with store := store', lock := some (.drop c) }
  /-- There is no database worker in time. -/
  | busy {c : C} {file : Blob} :
      s.lock = some (.commit c file) → Step phc config s .proceed { s with lock := some (.drop c) }
  | drop {c : C} {p : Pending} :
      s.lock = some (.drop c) → s.pending c = some p →
      Step phc config s .proceed
        { s with
          reservations := s.reservations.drop p.storageReservation
          pending := Function.update s.pending c none
          lock := some .finished }
  | abandon {c : C} {p : Pending} :
      s.pending c = some p → s.Free c →
      Step phc config s (.abandon c)
        { s with
          reservations := s.reservations.drop p.storageReservation
          pending := Function.update s.pending c none }
  | restore {c : C} {v : Value} :
      s.lock = none →
      Step phc config s (.restore c v) { s with lock := some (.reserved c v) }
  | reserved {c : C} {v : Value} :
      s.lock = some (.reserved c v) →
      Step phc config s .proceed
        { s with lock := some (.reservedForOwner c v s.reservations.reserved) }
  | reservedForOwner {c : C} {connection : Connection} {v : Value} {reservedGlobal : Int} :
      s.lock = some (.reservedForOwner c v reservedGlobal) → s.connections c = some connection →
      Step phc config s .proceed
        { s with
          lock := some (.restore c v reservedGlobal
            (s.reservations.reservedForOwner connection.vaultOwnerUserId)) }
  | restoreRevision {c : C} {connection : Connection} {v : Value}
        {reservedGlobal reservedOwner : Int} {request : Request} {t : Readings} {store' : Store} :
      s.lock = some (.restore c v reservedGlobal reservedOwner) →
      s.connections c = some connection →
      Blackglass.restore config connection.session reservedGlobal reservedOwner v = .ok request →
      s.store.Step (request, t) store' →
      Step phc config s (.transact t) { s with store := store', lock := some .finished }
  /-- Purges, and the handlers that rename, delete and migrate vaults. -/
  | lock {request : Request} :
      s.lock = none → request.adds = false → request.unlocked = false →
      Step phc config s (.lock request) { s with lock := some (.request request) }
  | transact {request : Request} {t : Readings} {store' : Store} :
      s.lock = some (.request request) → (∀ id ∈ request.newVault?, id ∉ s.used) →
      s.store.Step (request, t) store' →
      Step phc config s (.transact t)
        { s with
          store := store', lock := some .finished, used := request.newVault?.toList ++ s.used }
  | unlock {holder : Holder C} :
      s.lock = some holder → holder.mayReturn = true →
      Step phc config s .unlock { s with lock := none }
  /-- The handlers that do not take the lock, and those that were dropped with the lock in their
  hands: what is left of a rename, a deletion or a migration is a transaction that is still run. -/
  | unlocked {request : Request} {t : Readings} {store' : Store} :
      request.adds = false → (∀ id ∈ request.newVault?, id ∉ s.used) →
      s.store.Step (request, t) store' →
      Step phc config s (.unlocked request t)
        { s with store := store', used := request.newVault?.toList ++ s.used }
  | account {op : AccountOperation} {now : Int} {store' : Store} :
      s.store.Account phc (op, now) store' →
      Step phc config s (.account op now) { s with store := store' }

end

/-! ## Accounts -/

/-- What an upload holds of a limit. -/
def heldOf (scope : Scope) : Option Pending → Int
  | none => 0
  | some p => scope.share p.storageReservation.ownerUserId p.storageReservation.bytes

section

variable [DecidableEq C] {scope : Scope} {spender : Option C} {pending : C → Option Pending} {c : C}

/-- What the connections hold, where one of them may have spent it already. -/
def counted (scope : Scope) (spender : Option C) (pending : C → Option Pending) (c : C) : Int :=
  if spender = some c then 0 else heldOf scope (pending c)

def State.account (s : State C) (scope : Scope) : Budget.Account C where
  used := scope.used s.store.db
  held := counted scope s.spender? s.pending

theorem counted_update (h : spender ≠ some c) (p : Option Pending) :
    counted scope spender (Function.update pending c p) =
      Function.update (counted scope spender pending) c (heldOf scope p) := by
  funext i
  by_cases hi : i = c
  · rw [hi, Function.update_self, counted, if_neg h, Function.update_self]
  · rw [Function.update_of_ne hi, counted, Function.update_of_ne hi, counted]

theorem counted_spent :
    counted scope (some c) pending = Function.update (counted scope none pending) c 0 := by
  funext i
  by_cases hi : i = c
  · rw [hi, Function.update_self, counted, if_pos rfl]
  · rw [Function.update_of_ne hi, counted, if_neg fun h => hi (Option.some.inj h).symm]
    rfl

/-- To drop what has been spent changes nothing. -/
theorem counted_dropped :
    counted scope none (Function.update pending c none) = counted scope (some c) pending := by
  rw [counted_update (by simp), counted_spent]
  rfl

end

/-! ## The invariant -/

/-- The vault of the connection belongs to the owner that `init` found, or is gone for good. -/
structure Owned (db : Database) (used : List String) (connection : Connection) : Prop where
  used : connection.session.vault ∈ used
  owner : ∀ v ∈ db.vaults, v.id = connection.session.vault →
    v.ownerUserId = connection.vaultOwnerUserId

/-- The upload is of the connection, and its reservation is for it. -/
structure Holds (connection : Connection) (p : Pending) : Prop where
  pos : 0 < p.revision.size
  vault : p.revision.vaultId = connection.session.vault
  reservation : p.storageReservation = ⟨connection.vaultOwnerUserId, p.revision.size⟩

/-- The connection has no upload yet, and the push is for its vault. -/
def State.Awaits (s : State C) (c : C) (revision : NewRevision) : Prop :=
  s.pending c = none ∧ ∃ connection, s.connections c = some connection ∧
    revision.vaultId = connection.session.vault

/-- What the holder of the lock has read, as far as it still holds: nothing has been added to
what is stored, and nothing to what is reserved. -/
def Holder.Sees (s : State C) : Holder C → Prop
  | stored c revision => s.Awaits c revision
  | storedForOwner c revision committedGlobal =>
    s.Awaits c revision ∧ s.store.db.usedBytes ≤ committedGlobal
  | reserve c revision committedGlobal committedOwner =>
    s.Awaits c revision ∧ ∀ connection, s.connections c = some connection →
      ∀ scope : Scope, scope.covers connection.vaultOwnerUserId = true →
        scope.used s.store.db ≤ scope.pick committedGlobal committedOwner
  | commit c _ | drop c => (s.pending c).isSome = true
  | reservedForOwner _ _ reservedGlobal => s.reservations.reserved ≤ reservedGlobal
  | restore c _ reservedGlobal reservedOwner =>
    ∀ connection, s.connections c = some connection →
      ∀ scope : Scope, scope.covers connection.vaultOwnerUserId = true →
        scope.reserved s.reservations ≤ scope.pick reservedGlobal reservedOwner
  | request r => r.addsNoBytes = true
  | reserved .. | finished => True

variable [Fintype C] [DecidableEq C]

structure Sound (config : Config) (s : State C) : Prop where
  metered : Metered s.store.db
  known : ∀ v ∈ s.store.db.vaults, v.id ∈ s.used
  owned : ∀ c connection, s.connections c = some connection →
    Owned s.store.db s.used connection
  pending : ∀ c p, s.pending c = some p →
    ∃ connection, s.connections c = some connection ∧ Holds connection p
  totals : ∀ scope : Scope, scope.reserved s.reservations = ∑ c, heldOf scope (s.pending c)
  bounded : ∀ scope : Scope, scope.reserved s.reservations ≤ maxI64
  within : ∀ scope : Scope, (s.account scope).Within (scope.limit config)
  sees : ∀ holder, s.lock = some holder → holder.Sees s

section

variable {phc : PhcParser} {config : Config} {s s' : State C} {a : Action C} {c : C} {p : Pending}
  {scope : Scope}

namespace Sound

theorem heldOf_nonneg (h : Sound config s) (scope : Scope) (c : C) :
    0 ≤ heldOf scope (s.pending c) := by
  cases hp : s.pending c with
  | none => exact le_rfl
  | some p =>
    obtain ⟨connection, -, hholds⟩ := h.pending c p hp
    refine Scope.share_nonneg ?_
    rw [hholds.reservation]
    exact hholds.pos.le

theorem reserved_nonneg (h : Sound config s) (scope : Scope) :
    0 ≤ scope.reserved s.reservations := by
  rw [h.totals]
  exact Finset.sum_nonneg fun c _ => h.heldOf_nonneg scope c

/-- What an upload holds is part of the sums. -/
theorem heldOf_le (h : Sound config s) (scope : Scope) (c : C) :
    heldOf scope (s.pending c) ≤ scope.reserved s.reservations := by
  rw [h.totals]
  exact Budget.le_sum (h.heldOf_nonneg scope) c

theorem bytes_pos (h : Sound config s) (hp : s.pending c = some p) :
    0 < p.storageReservation.bytes := by
  obtain ⟨connection, -, hholds⟩ := h.pending c p hp
  rw [hholds.reservation]
  exact hholds.pos

/-- A drop takes exactly what the upload holds out of the sums. -/
theorem reserved_drop (h : Sound config s) (hp : s.pending c = some p) (scope : Scope) :
    scope.reserved (s.reservations.drop p.storageReservation) =
      scope.reserved s.reservations - heldOf scope (s.pending c) := by
  have hpart : ∀ scope : Scope, scope.share p.storageReservation.ownerUserId
      p.storageReservation.bytes ≤ scope.reserved s.reservations := by
    intro scope
    have hle := h.heldOf_le scope c
    rwa [hp] at hle
  rw [Scope.reserved_drop (h.bytes_pos hp) hpart h.bounded, hp]
  rfl

end Sound

/-! ## Steps of the accounts -/

omit [Fintype C] in
theorem account_lock {lock lock' : Option (Holder C)} (hlock : s.lock = lock)
    (h : lock'.bind Holder.spender? = lock.bind Holder.spender?) :
    State.account { s with lock := lock' } scope = s.account scope := by
  rw [← hlock] at h
  unfold State.account
  congr 1
  exact congrArg (counted scope · s.pending) h

omit [Fintype C] in
/-- A reservation that is spent, or whose commit has failed, is not held any more. -/
theorem account_spent (hspender : s.spender? = none) (store' : Store) :
    State.account { s with store := store', lock := some (.drop c) } scope =
      { used := scope.used store'.db, held := Function.update (s.account scope).held c 0 } := by
  unfold State.account
  rw [hspender]
  exact congrArg _ counted_spent

omit [Fintype C] in
theorem account_pending (hspender : s.spender? ≠ some c) (reservations : StorageReservations)
    (p : Option Pending) {lock : Option (Holder C)}
    (hlock : lock.bind Holder.spender? = s.spender?) :
    State.account { s with
        reservations := reservations, pending := Function.update s.pending c p
        lock := lock } scope =
      { s.account scope with
        held := Function.update (s.account scope).held c (heldOf scope p) } := by
  unfold State.account
  congr 1
  rw [← counted_update hspender]
  exact congrArg (counted scope · _) hlock

omit [Fintype C] in
theorem account_store (lock : Option (Holder C)) {store' : Store} {used : List String}
    (hlock : lock.bind Holder.spender? = s.spender?) :
    State.account { s with store := store', lock := lock, used := used } scope =
      { s.account scope with used := scope.used store'.db } := by
  unfold State.account
  congr 1
  exact congrArg (counted scope · s.pending) hlock

theorem Sound.account_reserved (h : Sound config s) (hspender : s.spender? = none) :
    (s.account scope).reserved = scope.reserved s.reservations := by
  rw [h.totals]
  refine Finset.sum_congr rfl fun c _ => ?_
  show counted scope s.spender? s.pending c = _
  rw [hspender]
  exact if_neg (by simp)

omit [Fintype C] [DecidableEq C] in
theorem spender?_of_lock {lock : Option (Holder C)} (hlock : s.lock = lock) :
    s.spender? = lock.bind Holder.spender? := congrArg (Option.bind · Holder.spender?) hlock

omit [Fintype C] [DecidableEq C] in
theorem spender?_of_free (h : s.Free c) : s.spender? ≠ some c := by
  intro hspender
  obtain ⟨holder, hlock, hholder⟩ := Option.bind_eq_some_iff.mp hspender
  refine h (Option.bind_eq_some_iff.mpr ⟨holder, hlock, ?_⟩)
  cases holder with
  | drop c' => exact hholder
  | _ => cases hholder

omit [Fintype C] [DecidableEq C] in
theorem spender?_of_mayReturn {holder : Holder C} (h : holder.mayReturn = true) :
    holder.spender? = none := by
  cases holder with
  | drop c => cases h
  | _ => rfl

theorem addsNoBytes_of_adds {request : Request} (h : request.adds = false) :
    request.addsNoBytes = true := by
  cases request with
  | addFileRevision | restore => cases h
  | _ => rfl

theorem addsNoBytes_pushRequest {session : Session} {revision : NewRevision} {file : Blob}
    (h : metadataOnly revision = true) :
    (pushRequest config session revision file).addsNoBytes = true := by
  have hempty : pushRequest config session revision file = .addEmptyRevision revision
      session.tokenHash config.storageQuotaBytes config.storageQuotaBytesPerOwner := if_pos h
  rw [hempty]
  rfl

/-- What a restore asks the database for. -/
theorem restore_ok {session : Session} {reservedGlobal reservedOwner : Int} {v : Value}
    {request : Request}
    (h : Blackglass.restore config session reservedGlobal reservedOwner v = .ok request) :
    ∃ uid, request = .restore session.userId session.tokenHash session.vault uid session.device
      (saturate (config.storageQuotaBytes - reservedGlobal))
      (saturate (config.storageQuotaBytesPerOwner - reservedOwner)) := by
  simp only [Blackglass.restore, bind_eq_ok, orReject_eq_ok, pure_eq_ok] at h
  obtain ⟨uid, -, rfl⟩ := h
  exact ⟨uid, rfl⟩

theorem le_of_le_saturate {x y : Int} (hy : 0 ≤ y) (h : y ≤ saturate x) : y ≤ x := by
  unfold saturate at h
  omega

/-- The owner that a commit counts for is the one that the connection knows. -/
theorem Sound.owner_eq (h : Sound config s) {connection : Connection}
    (hconnection : s.connections c = some connection) {db' : Database} {vaultId : String}
    {ownerUserId bytes globalLimit ownerLimit : Int} (hvault : vaultId = connection.session.vault)
    (hadded : Added s.store.db db' vaultId ownerUserId bytes globalLimit ownerLimit) :
    ownerUserId = connection.vaultOwnerUserId := by
  obtain ⟨v, hv, hid, rfl⟩ := ownsVault_iff.mp hadded.owned
  exact (h.owned c connection hconnection).owner v hv (hid.trans hvault)

/-- A restore adds what is free beside all reservations. -/
theorem Sound.account_restore (h : Sound config s) {connection : Connection} {v : Value}
    {reservedGlobal reservedOwner uid : Int} {t : Readings} {store' : Store}
    (hlock : s.lock = some (.restore c v reservedGlobal reservedOwner))
    (hconnection : s.connections c = some connection)
    (hstore : s.store.Step (.restore connection.session.userId connection.session.tokenHash
      connection.session.vault uid connection.session.device
      (saturate (config.storageQuotaBytes - reservedGlobal))
      (saturate (config.storageQuotaBytesPerOwner - reservedOwner)), t) store') :
    let s' : State C := { s with store := store', lock := some .finished }
    s'.account scope = s.account scope ∨
      Budget.Step (scope.limit config) (s.account scope) (s'.account scope) := by
  intro s'
  have hspender : s.spender? = none := spender?_of_lock hlock
  have haccount : s'.account scope = { s.account scope with used := scope.used store'.db } :=
    account_store _ hspender.symm
  rw [haccount]
  cases hstore with
  | rollback _ => exact .inl rfl
  | commit hok =>
    rcases added_of_restore (execute_ok hok) s.store.constraints h.metered with
      hsame | ⟨ownerUserId, bytes, hadded⟩
    · rw [hsame]
      exact .inl rfl
    · obtain rfl := h.owner_eq hconnection rfl hadded
      rw [hadded.used]
      refine .inr (.spendFree ?_)
      rw [h.account_reserved hspender]
      cases hcovers : scope.covers connection.vaultOwnerUserId with
      | false => exact .inl (Scope.share_of_not_covers hcovers)
      | true =>
        rw [Scope.share_of_covers hcovers]
        refine hadded.fits.imp_right fun hfits => ?_
        have hreserved : scope.reserved s.reservations ≤
            scope.pick reservedGlobal reservedOwner :=
          h.sees _ hlock connection hconnection scope hcovers
        have hlowered : scope.used s.store.db + bytes ≤
            scope.limit config - scope.pick reservedGlobal reservedOwner := by
          have hnonneg : 0 ≤ scope.used s.store.db + bytes :=
            Int.add_nonneg (Scope.used_nonneg h.metered) hadded.nonneg
          have hle := hfits scope hcovers
          cases scope with
          | all => exact le_of_le_saturate hnonneg hle
          | owner userId => exact le_of_le_saturate hnonneg hle
        show scope.used s.store.db + bytes + _ ≤ _
        omega

section

variable (hglobal : config.storageQuotaBytes ≤ maxI64)
  (howner : config.storageQuotaBytesPerOwner ≤ maxI64)
include hglobal howner

theorem Sound.account_reserve (h : Sound config s) {connection : Connection}
    {revision : NewRevision} {committedGlobal committedOwner : Int}
    {reservation : StorageReservation} {reservations : StorageReservations}
    (hlock : s.lock = some (.reserve c revision committedGlobal committedOwner))
    (hconnection : s.connections c = some connection)
    (htry : s.reservations.tryReserve committedGlobal committedOwner connection.vaultOwnerUserId
      revision.size config.storageQuotaBytes config.storageQuotaBytesPerOwner =
        .ok (some (reservation, reservations))) :
    let s' : State C := { s with
      reservations := reservations
      pending := Function.update s.pending c (some ⟨revision, reservation⟩)
      lock := some .finished }
    s'.account scope = s.account scope ∨
      Budget.Step (scope.limit config) (s.account scope) (s'.account scope) := by
  intro s'
  obtain ⟨hpos, rfl, rfl, hfits⟩ := tryReserve_some h.reserved_nonneg hglobal howner htry
  obtain ⟨⟨hidle, -⟩, hcommitted⟩ :
    (Holder.reserve c revision committedGlobal committedOwner).Sees s := h.sees _ hlock
  have hspender : s.spender? = none := spender?_of_lock hlock
  have haccount : s'.account scope = { s.account scope with
      held := Function.update (s.account scope).held c
        (scope.share connection.vaultOwnerUserId revision.size) } :=
    account_pending (by rw [hspender]; simp) _ _ hspender.symm
  have hzero : (s.account scope).held c = 0 := by
    show counted scope s.spender? s.pending c = 0
    rw [hspender, counted, if_neg (by simp), hidle]
    rfl
  rw [haccount]
  cases hcovers : scope.covers connection.vaultOwnerUserId with
  | true =>
    rw [Scope.share_of_covers hcovers]
    refine .inr (.reserve hzero hpos ?_)
    rw [h.account_reserved hspender]
    have hfree := hfits scope hcovers
    have hread := hcommitted connection hconnection scope hcovers
    show scope.used s.store.db + _ + _ ≤ scope.pick _ _
    omega
  | false =>
    rw [Scope.share_of_not_covers hcovers, ← hzero, Function.update_eq_self]
    exact .inl rfl

/-- Every step is one of the account's, or leaves it as it was. -/
theorem Step.refines (h : Sound config s) (hstep : Step phc config s a s') (scope : Scope) :
    s'.account scope = s.account scope ∨
      Budget.Step (scope.limit config) (s.account scope) (s'.account scope) := by
  cases hstep with
  | connect _ _ _ => exact .inl rfl
  | pushEmpty hlock _ _ _ | pushFile hlock _ _ _ | stored hlock _ | storedForOwner hlock _
  | refuse hlock _ _ | finish _ hlock _ | restore hlock | reserved hlock | reservedForOwner hlock _
  | lock hlock _ _ => exact .inl (account_lock hlock rfl)
  | reserve hlock hconnection htry =>
    exact h.account_reserve hglobal howner hlock hconnection htry
  | @commit c connection p file t store' hlock hconnection hp hstore =>
    have hspender : s.spender? = none := spender?_of_lock hlock
    rw [account_spent hspender]
    cases hstore with
    | rollback _ => exact .inr .release
    | commit hok =>
      obtain ⟨ownerUserId, hadded⟩ :=
        added_of_upload (execute_ok hok) s.store.constraints h.metered
      obtain ⟨connection', hconnection', hholds⟩ := h.pending c p hp
      cases hconnection.symm.trans hconnection'
      obtain rfl := h.owner_eq hconnection hholds.vault hadded
      have hheld : (s.account scope).held c =
          scope.share connection.vaultOwnerUserId p.revision.size := by
        show counted scope s.spender? s.pending c = _
        rw [hspender, counted, if_neg (by simp), hp, heldOf, hholds.reservation]
      rw [hadded.used, ← hheld]
      exact .inr .spendHeld
  | busy hlock =>
    rw [account_spent (spender?_of_lock hlock) s.store]
    exact .inr .release
  | @drop c p hlock hp =>
    refine .inl ?_
    unfold State.account
    rw [spender?_of_lock hlock]
    exact congrArg _ counted_dropped
  | @abandon c p hp hfree =>
    rw [account_pending (spender?_of_free hfree) _ none rfl]
    exact .inr .release
  | @restoreRevision c connection v reservedGlobal reservedOwner request t store' hlock hconnection
      hrequest hstore =>
      obtain ⟨uid, rfl⟩ := restore_ok hrequest
      exact h.account_restore hlock hconnection hstore
  | transact hlock _ hstore =>
    have hnone : Request.addsNoBytes _ = true := h.sees _ hlock
    rw [account_store (some .finished) (spender?_of_lock hlock).symm]
    exact .inr (.giveBack (hstore.used_le h.metered hnone scope))
  | unlock hlock hreturn =>
    exact .inl (account_lock hlock (spender?_of_mayReturn hreturn).symm)
  | unlocked hadds _ hstore =>
    rw [account_store s.lock rfl]
    exact .inr (.giveBack (hstore.used_le h.metered (addsNoBytes_of_adds hadds) scope))
  | account haccount =>
    exact .inr (.giveBack (Scope.used_le_of_shrinks haccount.effect.shrinks h.metered))

end

end

end Admission

end Quota

end Blackglass
