import Blackglass.Lib.Tally
import Blackglass.Lib.Text
import Blackglass.Lib.Transition
import Blackglass.Lib.Watch

/-!
# The registry of live connections

A socket that has authenticated is in the `LiveRegistry`, with the sending side of a channel that
tells it that its authorization is revoked.  The registry refuses new entries when it has as many
as the server has connections, and a socket that is refused would go on without being told.  That
this does not happen rests on the order in which a socket's task gives things back: its entry is
one of the task's locals and goes before the connection permit, which is a parameter.

The tasks of all sockets run at the same time.  A step is what one of them does between two looks
at something shared.
-/

namespace Blackglass

open Tally Transition Watch

/-! ## The registry -/

structure LiveConnection where
  id : String
  vaultId : String
  device : String
  connectedAt : Int
  lastActivityAt : Int
  clientCursor : Int
  state : String
  userId : Int
deriving DecidableEq

/-- `LiveEntry`; the sending side is the number of its channel. -/
structure LiveEntry where
  connection : LiveConnection
  sessionHash : String
  cancellation : Nat
deriving DecidableEq

structure LiveRegistry where
  inner : AList fun _ : String => LiveEntry
  max : Nat

/-- `LiveGuard`; the receiver is the number of its channel. -/
structure LiveGuard where
  id : String
  cancellation : Nat
deriving DecidableEq

def maxDeviceBytes : Nat := 128

def sanitizeDevice (value : String) : String :=
  let words := (value.toList.splitOnP Text.isWhiteSpace).filter fun word => !word.isEmpty
  let clean := (([' '].intercalate words).take maxDeviceBytes).filter fun c => !Text.isControl c
  if clean.isEmpty then "Unknown device" else String.ofList clean

/-- What `init` knows of a connection when it registers it. -/
structure LiveIdentity where
  userId : Int
  sessionHash : String
  vault : String
  device : String
  cursor : Int
deriving DecidableEq

/-- A new entry for the registry. -/
def LiveIdentity.entry (identity : LiveIdentity) (id : String) (now : Int) (cancellation : Nat) :
    LiveEntry where
  connection := {
    id := id, vaultId := identity.vault, device := sanitizeDevice identity.device,
    connectedAt := now, lastActivityAt := now, clientCursor := identity.cursor,
    state := "replaying", userId := identity.userId }
  sessionHash := identity.sessionHash
  cancellation := cancellation

namespace LiveRegistry

/-- `LiveRegistry::new`. -/
def new (max : Nat) : LiveRegistry := ⟨∅, max⟩

/-- `register`, with the id that `Uuid::new_v4` returns and the time. -/
def register (registry : LiveRegistry) (channels : List (Channel Bool)) (identity : LiveIdentity)
    (id : String) (now : Int) : Option LiveGuard × LiveRegistry × List (Channel Bool) :=
  if registry.max ≤ registry.inner.entries.length then (none, registry, channels)
  else
    let cancellation := channels.length
    (some ⟨id, cancellation⟩,
      { registry with inner := registry.inner.insert id (identity.entry id now cancellation) },
      opened channels false)

/-- Send to all entries that satisfy `p`. -/
def cancelWhere (registry : LiveRegistry) (p : LiveEntry → Bool) (channels : List (Channel Bool)) :
    List (Channel Bool) :=
  sendAll channels true
    (((registry.inner.entries.map (·.2)).filter p).map (·.cancellation))

def cancelSession (registry : LiveRegistry) (sessionHash : String) :
    List (Channel Bool) → List (Channel Bool) :=
  registry.cancelWhere fun entry => entry.sessionHash = sessionHash

def cancelVault (registry : LiveRegistry) (vaultId : String) :
    List (Channel Bool) → List (Channel Bool) :=
  registry.cancelWhere fun entry => entry.connection.vaultId = vaultId

def cancelUserVault (registry : LiveRegistry) (userId : Int) (vaultId : String) :
    List (Channel Bool) → List (Channel Bool) :=
  registry.cancelWhere fun entry =>
    entry.connection.userId = userId && entry.connection.vaultId = vaultId

/-- Change the connection of an entry, if it is there. -/
def updateConnection (registry : LiveRegistry) (id : String)
    (f : LiveConnection → LiveConnection) : LiveRegistry :=
  match registry.inner.lookup id with
  | some entry =>
    { registry with
      inner := registry.inner.insert id { entry with connection := f entry.connection } }
  | none => registry

end LiveRegistry

namespace LiveGuard

def activity (guard : LiveGuard) (cursor : Int) (state : String) (now : Int)
    (registry : LiveRegistry) : LiveRegistry :=
  registry.updateConnection guard.id fun connection =>
    { connection with
      clientCursor := cursor, lastActivityAt := now,
      state := String.ofList (state.toList.take 32) }

def protocolActivity (guard : LiveGuard) (state : String) (now : Int)
    (registry : LiveRegistry) : LiveRegistry :=
  registry.updateConnection guard.id fun connection =>
    { connection with lastActivityAt := now, state := String.ofList (state.toList.take 32) }

/-- `drop`. -/
def drop (guard : LiveGuard) (registry : LiveRegistry) : LiveRegistry :=
  { registry with inner := registry.inner.erase guard.id }

end LiveGuard

/-! ## The tasks -/

/-- How far the task of a socket has come.  Each of these holds a connection permit. -/
inductive SocketTask where
  /-- The permit has been moved to the closure of `on_upgrade`. -/
  | upgrading
  /-- `socket_loop` serves a socket that is not authenticated. -/
  | unauthenticated
  /-- `init` has set `session.authenticated` and is about to call `register`. -/
  | authenticated (identity : LiveIdentity)
  /-- `session.live` is what `register` returned, and `session.cancellation` its receiver. -/
  | registered (identity : LiveIdentity) (live : Option LiveGuard)
  /-- The loop is over and `drop` of the guard has run; its fields and then the permit go next. -/
  | dropped (live : Option LiveGuard)
deriving DecidableEq

/-- The three ways to revoke. -/
inductive Cancel where
  | session (sessionHash : String)
  | vault (vaultId : String)
  | userVault (userId : Int) (vaultId : String)

/-- The connections that are named. -/
def Cancel.names : Cancel → LiveIdentity → Prop
  | .session sessionHash, identity => identity.sessionHash = sessionHash
  | .vault vaultId, identity => identity.vault = vaultId
  | .userVault userId vaultId, identity => identity.userId = userId ∧ identity.vault = vaultId

def Cancel.run (cancel : Cancel) (registry : LiveRegistry) :
    List (Channel Bool) → List (Channel Bool) :=
  match cancel with
  | .session sessionHash => registry.cancelSession sessionHash
  | .vault vaultId => registry.cancelVault vaultId
  | .userVault userId vaultId => registry.cancelUserVault userId vaultId

/-- The semaphore `connections`, the registry, the channels and the tasks. -/
structure Sockets where
  available : Nat
  registry : LiveRegistry
  channels : List (Channel Bool)
  tasks : List SocketTask

/-- Tasks are named by their places in the list. -/
inductive SocketEvent where
  | upgrade
  | upgraded (task : Nat)
  /-- The connection is lost before `on_upgrade` calls its closure. -/
  | upgradeLost (task : Nat)
  | authenticate (task : Nat) (identity : LiveIdentity)
  | register (task : Nat) (id : String) (now : Int)
  | activity (task : Nat) (cursor : Int) (state : String) (now : Int)
  | protocolActivity (task : Nat) (state : String) (now : Int)
  /-- The loop is left, or the task is cancelled: its session is dropped. -/
  | finish (task : Nat)
  /-- The parameters of the task are dropped. -/
  | release (task : Nat)
  | cancel (cancel : Cancel)

namespace Sockets

def start (maxConnections : Nat) : Sockets :=
  ⟨maxConnections, .new maxConnections, [], []⟩

/-- What the task goes on to be, and what its step does to the registry. -/
def finishTask (registry : LiveRegistry) : SocketTask → Option (SocketTask × LiveRegistry)
  | .unauthenticated | .authenticated _ => some (.dropped none, registry)
  | .registered _ none => some (.dropped none, registry)
  | .registered _ (some guard) => some (.dropped (some guard), guard.drop registry)
  | .upgrading | .dropped _ => none

/-- The receivers of a guard that is gone: its own, and the clone in the session. -/
def dropReceivers (channels : List (Channel Bool)) : Option LiveGuard → List (Channel Bool)
  | some guard => unsubscribe (unsubscribe channels guard.cancellation) guard.cancellation
  | none => channels

def next (s : Sockets) : SocketEvent → Option Sockets
  | .upgrade =>
    -- `try_acquire_owned`; without a permit the answer is 503
    if s.available = 0 then some s
    else some { s with available := s.available - 1, tasks := s.tasks ++ [.upgrading] }
  | .upgraded task =>
    if s.tasks[task]? = some .upgrading then
      some { s with tasks := s.tasks.set task .unauthenticated }
    else none
  | .upgradeLost task =>
    if s.tasks[task]? = some .upgrading then
      some { s with available := s.available + 1, tasks := s.tasks.eraseIdx task }
    else none
  | .authenticate task identity =>
    if s.tasks[task]? = some .unauthenticated then
      some { s with tasks := s.tasks.set task (.authenticated identity) }
    else none
  | .register task id now =>
    match s.tasks[task]? with
    | some (.authenticated identity) =>
      -- two UUIDs are not equal
      if id ∈ s.registry.inner then none
      else
        let (live, registry, channels) := s.registry.register s.channels identity id now
        let channels := match live with
          | some guard => subscribe channels guard.cancellation
          | none => channels
        some { s with
          registry := registry, channels := channels,
          tasks := s.tasks.set task (.registered identity live) }
    | _ => none
  | .activity task cursor state now =>
    match s.tasks[task]? with
    | some (.registered _ (some guard)) =>
      some { s with registry := guard.activity cursor state now s.registry }
    | _ => none
  | .protocolActivity task state now =>
    match s.tasks[task]? with
    | some (.registered _ (some guard)) =>
      some { s with registry := guard.protocolActivity state now s.registry }
    | _ => none
  | .finish task =>
    match (s.tasks[task]?).bind (finishTask s.registry) with
    | some (dropped, registry) =>
      some { s with registry := registry, tasks := s.tasks.set task dropped }
    | none => none
  | .release task =>
    match s.tasks[task]? with
    | some (.dropped live) =>
      some { s with
        available := s.available + 1, channels := dropReceivers s.channels live,
        tasks := s.tasks.eraseIdx task }
    | _ => none
  | .cancel cancel => some { s with channels := cancel.run s.registry s.channels }

end Sockets

/-! ## What the tasks hold -/

namespace SocketTask

/-- The entry of the registry that the task will remove. -/
def entryId : SocketTask → Option String
  | .registered _ (some guard) => some guard.id
  | _ => none

/-- The channel of which the task has receivers. -/
def channel : SocketTask → Option Nat
  | .registered _ (some guard) | .dropped (some guard) => some guard.cancellation
  | _ => none

/-- A task that has registered is in the registry under its own name and hears of it when it is
cancelled. -/
def Connected (registry : LiveRegistry) (channels : List (Channel Bool)) : SocketTask → Prop
  | .registered identity live =>
    ∃ guard entry, live = some guard ∧ registry.inner.lookup guard.id = some entry ∧
      (entry.sessionHash = identity.sessionHash ∧ entry.connection.vaultId = identity.vault ∧
        entry.connection.userId = identity.userId) ∧
      entry.cancellation = guard.cancellation ∧ Listening channels guard.cancellation
  | .dropped (some guard) => guard.cancellation < channels.length
  | _ => True

/-- A task that has nothing but its permit. -/
def Bare (t : SocketTask) : Prop :=
  t.entryId = none ∧ t.channel = none ∧ ∀ registry channels, t.Connected registry channels

end SocketTask

namespace Sockets

open SocketTask

/-- Permits and tasks, and entries and registered tasks, correspond. -/
structure Sound (maxConnections : Nat) (s : Sockets) : Prop where
  permits : s.available + s.tasks.length = maxConnections
  capacity : s.registry.max = maxConnections
  entries : s.registry.inner.keys.Perm (s.tasks.filterMap entryId)
  distinct : (s.tasks.filterMap channel).Nodup
  connected : ∀ t ∈ s.tasks, t.Connected s.registry s.channels

variable {maxConnections available : Nat} {registry registry' : LiveRegistry}
  {channels channels' : List (Channel Bool)} {t t' : SocketTask}
  {tasks tasks' rest : List SocketTask} {s s' : Sockets} {identity : LiveIdentity}
  {guard : LiveGuard}

theorem Sound.perm (h : Sound maxConnections ⟨available, registry, channels, tasks⟩)
    (hperm : tasks.Perm tasks') : Sound maxConnections ⟨available, registry, channels, tasks'⟩ where
  permits := by
    rw [← hperm.length_eq]
    exact h.permits
  capacity := h.capacity
  entries := h.entries.trans (hperm.filterMap entryId)
  distinct := (hperm.filterMap channel).nodup_iff.mp h.distinct
  connected t ht := h.connected t (hperm.mem_iff.mpr ht)

/-! ### The other tasks -/

theorem lt_length_of_channel {c : Nat} (hconnected : t.Connected registry channels)
    (hc : t.channel = some c) : c < channels.length := by
  cases t with
  | upgrading | unauthenticated | authenticated identity => cases hc
  | registered identity live =>
    obtain ⟨guard, entry, rfl, -, -, -, hlistening⟩ := hconnected
    obtain rfl := Option.some.inj hc
    exact hlistening.lt_length
  | dropped live =>
    cases live with
    | none => cases hc
    | some guard =>
      obtain rfl := Option.some.inj hc
      exact hconnected

theorem mem_of_entryId {id : String} (hconnected : t.Connected registry channels)
    (hid : t.entryId = some id) : id ∈ registry.inner := by
  cases t with
  | upgrading | unauthenticated | authenticated identity | dropped live => cases hid
  | registered identity live =>
    obtain ⟨guard, entry, rfl, hlookup, -⟩ := hconnected
    obtain rfl := Option.some.inj hid
    exact AList.lookup_isSome.mp (by rw [hlookup]; rfl)

/-- What happens to other entries and other channels leaves a task connected. -/
theorem Connected.frame (h : t.Connected registry channels)
    (hentry : ∀ id, t.entryId = some id → ∀ entry, registry.inner.lookup id = some entry →
      ∃ entry', registry'.inner.lookup id = some entry' ∧ entry'.sessionHash = entry.sessionHash ∧
        entry'.connection.vaultId = entry.connection.vaultId ∧
        entry'.connection.userId = entry.connection.userId ∧
        entry'.cancellation = entry.cancellation)
    (hchannel : ∀ c, t.channel = some c → Listening channels c → Listening channels' c)
    (hlength : channels.length ≤ channels'.length) : t.Connected registry' channels' := by
  cases t with
  | upgrading | unauthenticated | authenticated identity => trivial
  | registered identity live =>
    obtain ⟨guard, entry, rfl, hlookup, ⟨hhash, hvault, huser⟩, hcancellation, hlistening⟩ := h
    obtain ⟨entry', hlookup', hhash', hvault', huser', hcancellation'⟩ :=
      hentry guard.id rfl entry hlookup
    exact ⟨guard, entry', rfl, hlookup', ⟨hhash'.trans hhash, hvault'.trans hvault,
      huser'.trans huser⟩, hcancellation'.trans hcancellation, hchannel _ rfl hlistening⟩
  | dropped live =>
    cases live with
    | none => trivial
    | some guard => exact Nat.lt_of_lt_of_le h hlength

/-- The same, where the entry of the task is not touched at all. -/
theorem Connected.frame_lookup (h : t.Connected registry channels)
    (hentry : ∀ id, t.entryId = some id → registry'.inner.lookup id = registry.inner.lookup id)
    (hchannel : ∀ c, t.channel = some c → Listening channels c → Listening channels' c)
    (hlength : channels.length ≤ channels'.length) : t.Connected registry' channels' :=
  Connected.frame h (fun id hid entry hlookup =>
    ⟨entry, (hentry id hid).trans hlookup, rfl, rfl, rfl, rfl⟩) hchannel hlength

theorem bare_upgrading : Bare .upgrading := ⟨rfl, rfl, fun _ _ => trivial⟩

theorem bare_unauthenticated : Bare .unauthenticated := ⟨rfl, rfl, fun _ _ => trivial⟩

theorem bare_authenticated : Bare (.authenticated identity) := ⟨rfl, rfl, fun _ _ => trivial⟩

theorem bare_dropped : Bare (.dropped none) := ⟨rfl, rfl, fun _ _ => trivial⟩

/-! ### One step -/

namespace Sound

theorem connected_rest (h : Sound maxConnections ⟨available, registry, channels, t :: rest⟩) :
    ∀ u ∈ rest, u.Connected registry channels :=
  fun u hu => h.connected u (List.mem_cons_of_mem _ hu)

theorem replace_bare (h : Sound maxConnections ⟨available, registry, channels, t :: rest⟩)
    (ht : Bare t) (ht' : Bare t') :
    Sound maxConnections ⟨available, registry, channels, t' :: rest⟩ where
  permits := h.permits
  capacity := h.capacity
  entries := by
    have hentries := h.entries
    rw [List.filterMap_cons_none ht.1] at hentries
    rwa [List.filterMap_cons_none ht'.1]
  distinct := by
    have hdistinct := h.distinct
    rw [List.filterMap_cons_none ht.2.1] at hdistinct
    rwa [List.filterMap_cons_none ht'.2.1]
  connected u hu := by
    rcases List.mem_cons.mp hu with rfl | hu
    · exact ht'.2.2 _ _
    · exact h.connected_rest u hu

theorem remove_bare (h : Sound maxConnections ⟨available, registry, channels, t :: rest⟩)
    (ht : Bare t) : Sound maxConnections ⟨available + 1, registry, channels, rest⟩ where
  permits := by
    have hpermits := h.permits
    simp only [List.length_cons] at hpermits ⊢
    omega
  capacity := h.capacity
  entries := by
    have hentries := h.entries
    rwa [List.filterMap_cons_none ht.1] at hentries
  distinct := by
    have hdistinct := h.distinct
    rwa [List.filterMap_cons_none ht.2.1] at hdistinct
  connected := h.connected_rest

theorem add_upgrading (h : Sound maxConnections ⟨available + 1, registry, channels, tasks⟩) :
    Sound maxConnections ⟨available, registry, channels, .upgrading :: tasks⟩ where
  permits := by
    have hpermits := h.permits
    simp only [List.length_cons] at hpermits ⊢
    omega
  capacity := h.capacity
  entries := h.entries
  distinct := h.distinct
  connected u hu := by
    rcases List.mem_cons.mp hu with rfl | hu
    · trivial
    · exact h.connected u hu

/-- A task that is about to register has a permit and no entry, so there is room for one. -/
theorem room (h : Sound maxConnections ⟨available, registry, channels, t :: rest⟩)
    (ht : Bare t) : registry.inner.entries.length < registry.max := by
  have hpermits := h.permits
  have hentries := h.entries.length_eq
  have hle := List.length_filterMap_le entryId rest
  have hcapacity := h.capacity
  simp only [List.filterMap_cons_none ht.1, length_keys, List.length_cons] at *
  omega

theorem register (h : Sound maxConnections
      ⟨available, registry, channels, .authenticated identity :: rest⟩)
    {id : String} (hid : id ∉ registry.inner) (now : Int) :
    ∃ guard registry' channels',
      registry.register channels identity id now = (some guard, registry', channels') ∧
        Sound maxConnections ⟨available, registry', subscribe channels' guard.cancellation,
          .registered identity (some guard) :: rest⟩ := by
  have hroom := h.room bare_authenticated
  refine ⟨_, _, _, by rw [LiveRegistry.register, if_neg (Nat.not_le.mpr hroom)], ?_⟩
  refine ⟨h.permits, h.capacity, ?_, ?_, fun u hu => ?_⟩
  · have hkeys : registry.inner.keys.erase id = registry.inner.keys :=
      List.erase_of_not_mem fun hmem => hid (AList.mem_keys.mpr hmem)
    rw [AList.keys_insert, hkeys]
    exact h.entries.cons id
  · refine List.nodup_cons.mpr ⟨fun hmem => ?_, h.distinct⟩
    obtain ⟨u, hu, hchannel⟩ := List.mem_filterMap.mp hmem
    exact Nat.lt_irrefl _ (lt_length_of_channel (h.connected_rest u hu) hchannel)
  · rcases List.mem_cons.mp hu with rfl | hu
    · exact ⟨_, _, rfl, AList.lookup_insert _, ⟨rfl, rfl, rfl⟩, rfl,
        (listening_opened channels false).subscribe _⟩
    · have hconnected := h.connected_rest u hu
      refine Connected.frame_lookup hconnected (fun id' hid' => AList.lookup_insert_ne ?_)
        (fun c _ hc => (hc.opened false).subscribe _) ?_
      · rintro rfl
        exact hid (mem_of_entryId hconnected hid')
      · simp [subscribe, opened]

/-- An entry of the registry gets another connection of the same user and vault. -/
theorem updateConnection (h : Sound maxConnections ⟨available, registry, channels, tasks⟩)
    (id : String) {f : LiveConnection → LiveConnection}
    (hf : ∀ connection, (f connection).vaultId = connection.vaultId ∧
      (f connection).userId = connection.userId) :
    Sound maxConnections ⟨available, registry.updateConnection id f, channels, tasks⟩ := by
  rw [LiveRegistry.updateConnection]
  split
  case h_2 => exact h
  case h_1 entry hlookup =>
    have hmem : id ∈ registry.inner.keys :=
      AList.mem_keys.mp (AList.lookup_isSome.mp (by rw [hlookup]; rfl))
    refine ⟨h.permits, h.capacity, ?_, h.distinct, fun u hu => ?_⟩
    · rw [AList.keys_insert]
      exact (List.perm_cons_erase hmem).symm.trans h.entries
    · refine Connected.frame (h.connected u hu) (fun id' _ entry' hlookup' => ?_)
        (fun _ _ hc => hc) (Nat.le_refl _)
      by_cases hid : id' = id
      · subst hid
        obtain rfl : entry = entry' := Option.some.inj (hlookup.symm.trans hlookup')
        exact ⟨_, AList.lookup_insert _, rfl, (hf _).1, (hf _).2, rfl⟩
      · exact ⟨entry', (AList.lookup_insert_ne hid).trans hlookup', rfl, rfl, rfl, rfl⟩

theorem drop (h : Sound maxConnections
      ⟨available, registry, channels, .registered identity (some guard) :: rest⟩) :
    Sound maxConnections ⟨available, guard.drop registry, channels,
      .dropped (some guard) :: rest⟩ := by
  have hentries : registry.inner.keys.Perm (guard.id :: rest.filterMap entryId) := h.entries
  have hnodup : (guard.id :: rest.filterMap entryId).Nodup :=
    hentries.nodup_iff.mp registry.inner.keys_nodup
  refine ⟨h.permits, h.capacity, ?_, h.distinct, fun u hu => ?_⟩
  · have herase := hentries.erase guard.id
    rw [List.erase_cons_head] at herase
    rw [LiveGuard.drop, AList.keys_erase]
    exact herase
  · rcases List.mem_cons.mp hu with rfl | hu
    · exact lt_length_of_channel (h.connected _ List.mem_cons_self) rfl
    · refine Connected.frame_lookup (h.connected_rest u hu)
        (fun id hid => AList.lookup_erase_ne ?_) (fun _ _ hc => hc) (Nat.le_refl _)
      rintro rfl
      exact (List.nodup_cons.mp hnodup).1 (List.mem_filterMap.mpr ⟨u, hu, hid⟩)

theorem finish (h : Sound maxConnections ⟨available, registry, channels, t :: rest⟩)
    (hfinish : finishTask registry t = some (t', registry')) :
    Sound maxConnections ⟨available, registry', channels, t' :: rest⟩ := by
  cases t with
  | upgrading => cases hfinish
  | unauthenticated =>
    obtain ⟨rfl, rfl⟩ := Prod.mk.inj (Option.some.inj hfinish)
    exact h.replace_bare bare_unauthenticated bare_dropped
  | authenticated identity =>
    obtain ⟨rfl, rfl⟩ := Prod.mk.inj (Option.some.inj hfinish)
    exact h.replace_bare bare_authenticated bare_dropped
  | registered identity live =>
    obtain ⟨guard, -, rfl, -⟩ := h.connected _ List.mem_cons_self
    obtain ⟨rfl, rfl⟩ := Prod.mk.inj (Option.some.inj hfinish)
    exact h.drop
  | dropped live => cases hfinish

theorem release_guard (h : Sound maxConnections
      ⟨available, registry, channels, .dropped (some guard) :: rest⟩) :
    Sound maxConnections
      ⟨available + 1, registry, dropReceivers channels (some guard), rest⟩ := by
  have hdistinct : (guard.cancellation :: rest.filterMap channel).Nodup := h.distinct
  refine ⟨?_, h.capacity, h.entries, (List.nodup_cons.mp hdistinct).2, fun u hu => ?_⟩
  · have hpermits := h.permits
    simp only [List.length_cons] at hpermits ⊢
    omega
  · refine Connected.frame_lookup (h.connected_rest u hu) (fun _ _ => rfl)
      (fun c hc hlistening => ?_) (by simp [dropReceivers, unsubscribe])
    have hne : guard.cancellation ≠ c := by
      rintro rfl
      exact (List.nodup_cons.mp hdistinct).1 (List.mem_filterMap.mpr ⟨u, hu, hc⟩)
    exact (hlistening.unsubscribe hne).unsubscribe hne

theorem release {live : Option LiveGuard}
    (h : Sound maxConnections ⟨available, registry, channels, .dropped live :: rest⟩) :
    Sound maxConnections ⟨available + 1, registry, dropReceivers channels live, rest⟩ := by
  cases live with
  | none => exact h.remove_bare bare_dropped
  | some guard => exact h.release_guard

theorem cancel (h : Sound maxConnections ⟨available, registry, channels, tasks⟩) (cs : List Nat) :
    Sound maxConnections ⟨available, registry, sendAll channels true cs, tasks⟩ := by
  refine ⟨h.permits, h.capacity, h.entries, h.distinct, fun u hu => ?_⟩
  exact Connected.frame_lookup (h.connected u hu) (fun _ _ => rfl)
    (fun c _ hc => hc.sendAll true cs) (Nat.le_of_eq (length_sendAll channels true cs).symm)

end Sound

theorem exists_cancelWhere (cancel : Cancel) (registry : LiveRegistry)
    (channels : List (Channel Bool)) :
    ∃ cs, cancel.run registry channels = sendAll channels true cs := by
  cases cancel with
  | session sessionHash => exact ⟨_, rfl⟩
  | vault vaultId => exact ⟨_, rfl⟩
  | userVault userId vaultId => exact ⟨_, rfl⟩

theorem sound_next {event : SocketEvent} (h : Sound maxConnections s)
    (hnext : s.next event = some s') : Sound maxConnections s' := by
  obtain ⟨available, registry, channels, tasks⟩ := s
  cases event with
  | upgrade =>
    simp only [next] at hnext
    split at hnext
    case isTrue =>
      obtain rfl := Option.some.inj hnext
      exact h
    case isFalse hpos =>
      obtain rfl := Option.some.inj hnext
      obtain ⟨n, rfl⟩ := Nat.exists_eq_succ_of_ne_zero hpos
      exact h.add_upgrading.perm (List.perm_append_singleton _ _).symm
  | upgraded task =>
    simp only [next, Option.ite_none_right_eq_some, Option.some.injEq] at hnext
    obtain ⟨htask, rfl⟩ := hnext
    obtain ⟨rest, hperm, hset, -⟩ := exists_perm_of_getElem? htask
    exact ((h.perm hperm).replace_bare bare_upgrading bare_unauthenticated).perm (hset _).symm
  | upgradeLost task =>
    simp only [next, Option.ite_none_right_eq_some, Option.some.injEq] at hnext
    obtain ⟨htask, rfl⟩ := hnext
    obtain ⟨rest, hperm, -, herase⟩ := exists_perm_of_getElem? htask
    exact ((h.perm hperm).remove_bare bare_upgrading).perm herase.symm
  | authenticate task identity =>
    simp only [next, Option.ite_none_right_eq_some, Option.some.injEq] at hnext
    obtain ⟨htask, rfl⟩ := hnext
    obtain ⟨rest, hperm, hset, -⟩ := exists_perm_of_getElem? htask
    exact ((h.perm hperm).replace_bare bare_unauthenticated bare_authenticated).perm (hset _).symm
  | register task id now =>
    simp only [next] at hnext
    split at hnext
    case h_1 identity htask =>
      split at hnext
      case isTrue => cases hnext
      case isFalse hid =>
        obtain ⟨rest, hperm, hset, -⟩ := exists_perm_of_getElem? htask
        obtain ⟨guard, registry', channels', hregister, hsound⟩ :=
          (h.perm hperm).register hid now
        rw [hregister] at hnext
        obtain rfl := Option.some.inj hnext
        exact hsound.perm (hset _).symm
    case h_2 => cases hnext
  | activity task cursor state now =>
    simp only [next] at hnext
    split at hnext
    case h_1 identity guard htask =>
      obtain rfl := Option.some.inj hnext
      exact h.updateConnection _ fun _ => ⟨rfl, rfl⟩
    case h_2 => cases hnext
  | protocolActivity task state now =>
    simp only [next] at hnext
    split at hnext
    case h_1 identity guard htask =>
      obtain rfl := Option.some.inj hnext
      exact h.updateConnection _ fun _ => ⟨rfl, rfl⟩
    case h_2 => cases hnext
  | finish task =>
    simp only [next] at hnext
    split at hnext
    case h_1 dropped registry' hfinish =>
      obtain rfl := Option.some.inj hnext
      obtain ⟨t, htask, hfinish⟩ := Option.bind_eq_some_iff.mp hfinish
      obtain ⟨rest, hperm, hset, -⟩ := exists_perm_of_getElem? htask
      exact ((h.perm hperm).finish hfinish).perm (hset _).symm
    case h_2 => cases hnext
  | release task =>
    simp only [next] at hnext
    split at hnext
    case h_1 live htask =>
      obtain rfl := Option.some.inj hnext
      obtain ⟨rest, hperm, -, herase⟩ := exists_perm_of_getElem? htask
      exact ((h.perm hperm).release).perm herase.symm
    case h_2 => cases hnext
  | cancel cancel =>
    obtain rfl := Option.some.inj hnext
    obtain ⟨cs, hcs⟩ := exists_cancelWhere cancel registry channels
    rw [hcs]
    exact h.cancel cs

theorem sound_start (maxConnections : Nat) : Sound maxConnections (start maxConnections) where
  permits := rfl
  capacity := rfl
  entries := .nil
  distinct := .nil
  connected _ ht := by cases ht

/-! ## Runs -/

theorem reads_register {c : Nat} (h : Reads true channels c) (registry : LiveRegistry)
    (identity : LiveIdentity) (id : String) (now : Int) :
    Reads true (registry.register channels identity id now).2.2 c := by
  rw [LiveRegistry.register]
  split
  case isTrue => exact h
  case isFalse => exact h.opened

/-- A channel on which `true` was sent keeps it. -/
theorem reads_next {event : SocketEvent} {c : Nat} (h : Reads true s.channels c)
    (hnext : s.next event = some s') : Reads true s'.channels c := by
  cases event with
  | upgrade =>
    simp only [next] at hnext
    split at hnext <;> (obtain rfl := Option.some.inj hnext; exact h)
  | upgraded task | upgradeLost task | authenticate task identity =>
    simp only [next, Option.ite_none_right_eq_some, Option.some.injEq] at hnext
    obtain ⟨-, rfl⟩ := hnext
    exact h
  | activity task cursor state now | protocolActivity task state now | finish task =>
    simp only [next] at hnext
    split at hnext
    case h_1 =>
      obtain rfl := Option.some.inj hnext
      exact h
    case h_2 => cases hnext
  | register task id now =>
    simp only [next] at hnext
    split at hnext
    case h_1 identity htask =>
      split at hnext
      case isTrue => cases hnext
      case isFalse =>
        obtain rfl := Option.some.inj hnext
        have hreads := reads_register h s.registry identity id now
        dsimp only
        split
        · exact hreads.subscribe _
        · exact hreads
    case h_2 => cases hnext
  | release task =>
    simp only [next] at hnext
    split at hnext
    case h_1 live htask =>
      obtain rfl := Option.some.inj hnext
      cases live with
      | none => exact h
      | some guard => exact (h.unsubscribe _).unsubscribe _
    case h_2 => cases hnext
  | cancel cancel =>
    obtain rfl := Option.some.inj hnext
    obtain ⟨cs, hcs⟩ := exists_cancelWhere cancel s.registry s.channels
    exact hcs ▸ h.sendAll cs

/-- A named connection that is in the registry reads `true` after the sends. -/
theorem reads_cancel {cancel : Cancel} {live : Option LiveGuard}
    (hconnected : (SocketTask.registered identity live).Connected registry channels)
    (hnames : cancel.names identity) :
    ∃ guard, live = some guard ∧ Reads true (cancel.run registry channels) guard.cancellation := by
  obtain ⟨guard, entry, rfl, hlookup, ⟨hhash, hvault, huser⟩, hcancellation, hlistening⟩ :=
    hconnected
  have hentry : entry ∈ registry.inner.entries.map (·.2) :=
    List.mem_map.mpr ⟨⟨guard.id, entry⟩, AList.mem_lookup_iff.mp hlookup, rfl⟩
  have hreads : ∀ p : LiveEntry → Bool, p entry = true →
      Reads true (registry.cancelWhere p channels) guard.cancellation := by
    intro p hp
    refine reads_sendAll hlistening ?_ true
    exact hcancellation ▸ List.mem_map_of_mem (List.mem_filter.mpr ⟨hentry, hp⟩)
  refine ⟨guard, rfl, ?_⟩
  cases cancel with
  | session sessionHash => exact hreads _ (decide_eq_true (hhash.trans hnames))
  | vault vaultId => exact hreads _ (decide_eq_true (hvault.trans hnames))
  | userVault userId vaultId =>
    refine hreads _ ?_
    rw [Bool.and_eq_true]
    exact ⟨decide_eq_true (huser.trans hnames.1), decide_eq_true (hvault.trans hnames.2)⟩

end Sockets

/-- In every run, a task that is about to register is not refused, a task that has registered has
its entry and a receiver until it ends, and revoking reaches each registered connection that is
named: its receiver reads `true` from then on. -/
theorem sockets_cancellable {maxConnections : Nat} {events : List SocketEvent} {s : Sockets}
    (hrun : Run (fun s event s' => Sockets.next s event = some s') (.start maxConnections)
      events s) :
    (∀ identity, .authenticated identity ∈ s.tasks → ∀ id now,
      ∃ guard, (s.registry.register s.channels identity id now).1 = some guard) ∧
    (∀ identity live, .registered identity live ∈ s.tasks →
      (SocketTask.registered identity live).Connected s.registry s.channels) ∧
    (∀ (cancel : Cancel) s', s.next (.cancel cancel) = some s' →
      ∀ identity live, .registered identity live ∈ s.tasks → cancel.names identity →
        ∃ guard, live = some guard ∧ ∀ later s'',
          Run (fun s event s' => Sockets.next s event = some s') s' later s'' →
            Reads true s''.channels guard.cancellation) := by
  have hsound : s.Sound maxConnections :=
    hrun.invariant (I := Sockets.Sound maxConnections)
      (fun h hnext => Sockets.sound_next h hnext) (Sockets.sound_start maxConnections)
  refine ⟨fun identity hmem id now => ?_, fun identity live hmem => hsound.connected _ hmem,
    fun cancel s' hnext identity live hmem hnames => ?_⟩
  · obtain ⟨task, htask⟩ := List.mem_iff_getElem?.mp hmem
    obtain ⟨rest, hperm, -⟩ := exists_perm_of_getElem? htask
    have hroom := (hsound.perm hperm).room Sockets.bare_authenticated
    exact ⟨_, by rw [LiveRegistry.register, if_neg (Nat.not_le.mpr hroom)]⟩
  · obtain ⟨guard, hlive, hreads⟩ := Sockets.reads_cancel (hsound.connected _ hmem) hnames
    obtain rfl := Option.some.inj hnext
    exact ⟨guard, hlive, fun later s'' hlater =>
      hlater.invariant (I := fun s => Reads true s.channels guard.cancellation)
        (fun h hnext => Sockets.reads_next h hnext) hreads⟩

/-- The session of a device is revoked while it is connected, and its task goes on once more: it
reads `true` then. -/
theorem sockets_cancellable_one :
    ∃ s s' s'', Run (fun s event s' => Sockets.next s event = some s') (.start 1)
        [.upgrade, .upgraded 0, .authenticate 0 ⟨1, "hash", "vault", "Phone", 0⟩,
          .register 0 "id" 5] s ∧
      s.next (.cancel (.session "hash")) = some s' ∧
      Run (fun s event s' => Sockets.next s event = some s') s'
        [.protocolActivity 0 "ready" 6] s'' ∧
      Reads true s''.channels 0 := by
  obtain ⟨s, s', s'', hs, hcancel, hlater, hmem⟩ : ∃ s s' s'', [.upgrade, .upgraded 0,
      .authenticate 0 ⟨1, "hash", "vault", "Phone", 0⟩, .register 0 "id" 5].foldlM Sockets.next
        (.start 1) = some s ∧
      s.next (.cancel (.session "hash")) = some s' ∧
      s'.next (.protocolActivity 0 "ready" 6) = some s'' ∧
      .registered ⟨1, "hash", "vault", "Phone", 0⟩ (some ⟨"id", 0⟩) ∈ s.tasks :=
    ⟨_, _, _, rfl, rfl, rfl, List.mem_cons_self⟩
  have hrun : Run (Guarded (fun _ _ => True) fun s event s' => Sockets.next s event = some s')
      (.start 1) _ s := .of_foldlM (fun _ _ => trivial) hs
  have hafter : Run (fun s event s' => Sockets.next s event = some s') s'
      [.protocolActivity 0 "ready" 6] s'' := .cons hlater (.nil _)
  obtain ⟨guard, hguard, hreads⟩ :=
    (sockets_cancellable hrun.of_guarded).2.2 _ s' hcancel _ _ hmem rfl
  cases hguard
  exact ⟨s, s', s'', hrun.of_guarded, hcancel, hafter, hreads _ s'' hafter⟩

end Blackglass
