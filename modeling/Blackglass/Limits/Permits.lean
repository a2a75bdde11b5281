import Blackglass.Limits.Sources
import Blackglass.Lib.Tally

/-!
# Permits

Two limits of `server.rs` hand out permits that give back on drop what they took: a
`SourceConnectionPermit` for each WebSocket of an address that has no session yet, and a
`UserConcurrencyPermit` for each connection and each upload of a user.  Both count in a table in
which entries come and go.  Beside each table stands here the list of the permits that are
outstanding, and the counters of the table are the numbers of times they occur in it.
-/

namespace Blackglass

open Tally Transition

/-! ## Addresses -/

section Sources

variable {σ : Type*} [DecidableEq σ]
  (order : List (Sigma fun _ : σ => SourceLimitEntry) → List (Sigma fun _ : σ => SourceLimitEntry))

namespace SourceLimits

/-- The count of an address. -/
def websockets (limits : SourceLimits σ) (source : σ) : Nat :=
  ((limits.lookup source).map (·.unauthenticatedWebsockets)).getD 0

end SourceLimits

/-- The limits, with the address of each outstanding `SourceConnectionPermit`. -/
structure SourcePermits (σ : Type*) where
  limits : SourceLimits σ
  clock : Nat
  permits : List σ

inductive SourcePermitEvent (σ : Type*) where
  | signin (source : σ) (now : Nat)
  | refund (source : σ) (now : Nat)
  | websocket (source : σ) (now : Nat)
  | drop (source : σ) (now : Nat)

namespace SourcePermits

def start : SourcePermits σ := ⟨∅, 0, []⟩

/-- The clock does not go back, and only a permit that is outstanding is dropped. -/
def next (p : SourcePermits σ) : SourcePermitEvent σ → Option (SourcePermits σ)
  | .signin source now =>
    if p.clock ≤ now then some ⟨(p.limits.admitSignin order source now).2, now, p.permits⟩
    else none
  | .refund source now =>
    if p.clock ≤ now then some ⟨p.limits.refundSuccessfulSignin source now, now, p.permits⟩
    else none
  | .websocket source now =>
    if p.clock ≤ now then
      let (admitted, limits) := p.limits.admitWebsocket order source now
      some ⟨limits, now, if admitted then source :: p.permits else p.permits⟩
    else none
  | .drop source now =>
    if p.clock ≤ now ∧ source ∈ p.permits then
      some ⟨p.limits.dropPermit source now, now, p.permits.erase source⟩
    else none

/-- The counters are exact and within their bounds, and what a permit is counted in stays. -/
structure Exact (p : SourcePermits σ) : Prop where
  counts : ∀ source, p.limits.websockets source = p.permits.count source
  atMost : ∀ source, p.limits.websockets source ≤ maxUnauthenticatedWsPerSource
  size : p.limits.entries.length ≤ maxSourceLimitEntries
  /-- The subtraction of a drop does not saturate. -/
  counted : ∀ source ∈ p.permits, ∃ entry ∈ p.limits.lookup source,
    0 < entry.unauthenticatedWebsockets
  /-- Making room for an address does not take the entry of a permit. -/
  kept : ∀ held ∈ p.permits, ∀ source now,
    (p.limits.makeRoom order source now).lookup held = p.limits.lookup held

end SourcePermits

variable {order} {limits limits' : SourceLimits σ} {source s : σ} {now : Nat}
  {entry : SourceLimitEntry} {permits : List σ}

namespace SourceLimits

theorem websockets_of_lookup (h : limits.lookup source = some entry) :
    limits.websockets source = entry.unauthenticatedWebsockets := by
  rw [websockets, h]
  rfl

theorem websockets_congr (h : limits'.lookup source = limits.lookup source) :
    limits'.websockets source = limits.websockets source := by
  rw [websockets, websockets, h]

theorem lookup_of_websockets (h : 0 < limits.websockets source) :
    ∃ entry ∈ limits.lookup source, 0 < entry.unauthenticatedWebsockets := by
  rw [websockets] at h
  cases hlookup : limits.lookup source with
  | none => simp [hlookup] at h
  | some entry => exact ⟨entry, rfl, by simpa [hlookup] using h⟩

/-- What is counted is in use. -/
theorem lookup_retain_of_websockets (h : 0 < limits.websockets source) :
    (limits.retain now).lookup source = limits.lookup source := by
  obtain ⟨entry, hentry, hpos⟩ := lookup_of_websockets h
  rw [lookup_retain, Option.mem_def.mp hentry]
  simp [SourceLimitEntry.inUse, hpos]

theorem websockets_of_oldest (horder : ∀ entries, (order entries).Perm entries)
    (h : limits.oldest order = some source) : limits.websockets source = 0 := by
  obtain ⟨e, hfind, rfl⟩ := Option.map_eq_some_iff.mp h
  obtain ⟨hmem, hidle⟩ := List.mem_filter.mp (List.mem_of_find?_eq_some hfind)
  have hentry : e.2 ∈ limits.lookup e.1 :=
    AList.mem_lookup_iff.mpr ((horder limits.entries).mem_iff.mp hmem)
  rw [websockets_of_lookup hentry]
  simpa using hidle

theorem lookup_makeRoom (horder : ∀ entries, (order entries).Perm entries)
    (h : 0 < limits.websockets s) (source : σ) (now : Nat) :
    (limits.makeRoom order source now).lookup s = limits.lookup s := by
  have hretain : (limits.retain now).lookup s = limits.lookup s := lookup_retain_of_websockets h
  unfold makeRoom
  dsimp only
  split
  case isTrue =>
    split
    case h_1 address holdest =>
      have hne : s ≠ address := by
        rintro rfl
        rw [← websockets_congr hretain, websockets_of_oldest horder holdest] at h
        exact Nat.lt_irrefl 0 h
      rw [AList.lookup_erase_ne hne, hretain]
    case h_2 => exact hretain
  case isFalse => exact hretain

theorem mem_lookup_of_makeRoom (h : entry ∈ (limits.makeRoom order source now).lookup s) :
    entry ∈ limits.lookup s := by
  have hretain : ∀ e ∈ (limits.retain now).lookup s, e ∈ limits.lookup s := by
    intro e he
    rw [lookup_retain] at he
    exact (Option.mem_filter_iff.mp he).1
  unfold makeRoom at h
  dsimp only at h
  split at h
  case isTrue =>
    split at h
    case h_1 address _ =>
      by_cases hs : s = address
      · rw [hs, AList.lookup_erase] at h
        cases h
      · rw [AList.lookup_erase_ne hs] at h
        exact hretain entry h
    case h_2 => exact hretain entry h
  case isFalse => exact hretain entry h

theorem websockets_makeRoom (horder : ∀ entries, (order entries).Perm entries) (source s : σ)
    (now : Nat) : (limits.makeRoom order source now).websockets s = limits.websockets s := by
  rcases Nat.eq_zero_or_pos (limits.websockets s) with hzero | hpos
  · rw [hzero]
    by_contra hne
    obtain ⟨entry, hentry, hcount⟩ := lookup_of_websockets (Nat.pos_of_ne_zero hne)
    rw [websockets_of_lookup (mem_lookup_of_makeRoom hentry)] at hzero
    omega
  · exact websockets_congr (lookup_makeRoom horder hpos source now)

theorem length_makeRoom_le :
    (limits.makeRoom order source now).entries.length ≤ limits.entries.length := by
  have hretain : (limits.retain now).entries.length ≤ limits.entries.length :=
    List.length_filter_le _ _
  unfold makeRoom
  dsimp only
  split
  case isTrue =>
    split
    case h_1 address _ => exact Nat.le_trans (length_erase_le _ address) hretain
    case h_2 => exact hretain
  case isFalse => exact hretain

theorem entry_spec (horder : ∀ entries, (order entries).Perm entries)
    (hsize : limits.entries.length ≤ maxSourceLimitEntries) {result : Option SourceLimitEntry}
    (h : limits.entry order source now = (limits', result)) :
    (∀ s, limits'.websockets s = limits.websockets s) ∧
      limits'.entries.length ≤ maxSourceLimitEntries ∧
      ∀ entry ∈ result, limits'.lookup source = some entry := by
  have hroom : (limits.makeRoom order source now).entries.length ≤ maxSourceLimitEntries :=
    Nat.le_trans length_makeRoom_le hsize
  rw [SourceLimits.entry] at h
  dsimp only at h
  split at h
  case isTrue =>
    obtain ⟨rfl, rfl⟩ := Prod.mk.inj h
    exact ⟨fun s => websockets_makeRoom horder source s now, hroom, fun e he => by cases he⟩
  case isFalse hfull =>
    split at h
    case h_1 entry hlookup =>
      obtain ⟨rfl, rfl⟩ := Prod.mk.inj h
      refine ⟨fun s => websockets_makeRoom horder source s now, hroom, ?_⟩
      rintro e ⟨⟩
      exact hlookup
    case h_2 hlookup =>
      obtain ⟨rfl, rfl⟩ := Prod.mk.inj h
      have hnew := AList.lookup_eq_none.mp hlookup
      refine ⟨fun s => ?_, ?_, ?_⟩
      · refine Eq.trans ?_ (websockets_makeRoom horder source s now)
        by_cases hs : s = source
        · rw [hs, websockets, AList.lookup_insert, websockets, hlookup]
          rfl
        · exact websockets_congr (AList.lookup_insert_ne hs)
      · rw [length_insert_of_notMem hnew]
        have hnotFull : ¬maxSourceLimitEntries ≤
            (limits.makeRoom order source now).entries.length := fun h => hfull ⟨hnew, h⟩
        omega
      · rintro e ⟨⟩
        exact AList.lookup_insert _

end SourceLimits

/-! ### One event -/

/-- The counters of a table that is not too large are exact. -/
structure SourceLimits.Exact (limits : SourceLimits σ) (permits : List σ) : Prop where
  counts : Counts limits.websockets permits
  atMost : ∀ source, limits.websockets source ≤ maxUnauthenticatedWsPerSource
  size : limits.entries.length ≤ maxSourceLimitEntries

namespace SourceLimits.Exact

variable {old : SourceLimitEntry}

theorem websockets_insert (s : σ) : websockets (AList.insert source entry limits) s =
    if s = source then entry.unauthenticatedWebsockets else limits.websockets s := by
  split
  case isTrue hs => rw [hs, websockets_of_lookup (AList.lookup_insert _)]
  case isFalse hs => exact websockets_congr (AList.lookup_insert_ne hs)

/-- The entry of an address is replaced, with a count that is within the bound. -/
theorem insert (h : Exact limits permits) (hlookup : limits.lookup source = some old)
    {permits' : List σ} (hcount : entry.unauthenticatedWebsockets ≤ maxUnauthenticatedWsPerSource)
    (hcounts : Counts (websockets (AList.insert source entry limits)) permits') :
    Exact (AList.insert source entry limits) permits' where
  counts := hcounts
  atMost s := by
    rw [websockets_insert]
    split
    · exact hcount
    · exact h.atMost s
  size := by
    have hmem : source ∈ limits := AList.lookup_isSome.mp (by rw [hlookup]; rfl)
    rw [length_insert_of_mem hmem]
    exact h.size

theorem touch (h : Exact limits permits) (hlookup : limits.lookup source = some old)
    (hcount : entry.unauthenticatedWebsockets = old.unauthenticatedWebsockets) :
    Exact (AList.insert source entry limits) permits := by
  have hold := websockets_of_lookup hlookup
  refine h.insert hlookup (by rw [hcount, ← hold]; exact h.atMost source) ?_
  refine h.counts.congr fun s => ?_
  rw [websockets_insert]
  split
  case isTrue hs => rw [hs, hcount, hold]
  case isFalse => rfl

theorem acquire (h : Exact limits permits) (hlookup : limits.lookup source = some old)
    (hroom : old.unauthenticatedWebsockets < maxUnauthenticatedWsPerSource)
    (hcount : entry.unauthenticatedWebsockets = old.unauthenticatedWebsockets + 1) :
    Exact (AList.insert source entry limits) (source :: permits) := by
  refine h.insert hlookup (by omega) (h.counts.acquire ?_ fun s hs => ?_)
  · rw [websockets_insert, if_pos rfl, hcount, websockets_of_lookup hlookup]
  · rw [websockets_insert, if_neg hs]

theorem release (h : Exact limits permits) (hlookup : limits.lookup source = some old)
    (hcount : entry.unauthenticatedWebsockets = old.unauthenticatedWebsockets - 1) :
    Exact (AList.insert source entry limits) (permits.erase source) := by
  have hold := h.atMost source
  rw [websockets_of_lookup hlookup] at hold
  refine h.insert hlookup (by omega) (h.counts.release ?_ fun s hs => ?_)
  · rw [websockets_insert, if_pos rfl, hcount, websockets_of_lookup hlookup]
  · rw [websockets_insert, if_neg hs]

theorem of_entry (h : Exact limits permits) (horder : ∀ entries, (order entries).Perm entries)
    {result : Option SourceLimitEntry}
    (hentry : limits.entry order source now = (limits', result)) : Exact limits' permits := by
  obtain ⟨hcount, hsize, -⟩ := entry_spec horder h.size hentry
  exact ⟨h.counts.congr hcount, fun s => by rw [hcount]; exact h.atMost s, hsize⟩

theorem admitSignin (h : Exact limits permits) (horder : ∀ entries, (order entries).Perm entries)
    (source : σ) (now : Nat) : Exact (limits.admitSignin order source now).2 permits := by
  rw [SourceLimits.admitSignin]
  split
  case h_1 limits' hentry => exact h.of_entry horder hentry
  case h_2 limits' entry hentry =>
    have hlookup := (entry_spec horder h.size hentry).2.2 entry rfl
    dsimp only
    split
    · exact (h.of_entry horder hentry).touch hlookup rfl
    · exact (h.of_entry horder hentry).touch hlookup rfl

theorem refundSuccessfulSignin (h : Exact limits permits) (source : σ) (now : Nat) :
    Exact (limits.refundSuccessfulSignin source now) permits := by
  rw [SourceLimits.refundSuccessfulSignin]
  split
  case h_1 entry hlookup => exact h.touch hlookup rfl
  case h_2 => exact h

theorem admitWebsocket (h : Exact limits permits)
    (horder : ∀ entries, (order entries).Perm entries) {admitted : Bool}
    (hresult : limits.admitWebsocket order source now = (admitted, limits')) :
    Exact limits' (if admitted then source :: permits else permits) := by
  rw [SourceLimits.admitWebsocket] at hresult
  split at hresult
  case h_1 limits' hentry =>
    obtain ⟨rfl, rfl⟩ := Prod.mk.inj hresult
    exact h.of_entry horder hentry
  case h_2 limits' entry hentry =>
    have hlookup := (entry_spec horder h.size hentry).2.2 entry rfl
    split at hresult
    case isTrue =>
      obtain ⟨rfl, rfl⟩ := Prod.mk.inj hresult
      exact (h.of_entry horder hentry).touch hlookup rfl
    case isFalse hroom =>
      obtain ⟨rfl, rfl⟩ := Prod.mk.inj hresult
      exact (h.of_entry horder hentry).acquire hlookup (Nat.not_le.mp hroom) rfl

theorem dropPermit (h : Exact limits permits) (hheld : source ∈ permits) (now : Nat) :
    Exact (limits.dropPermit source now) (permits.erase source) := by
  obtain ⟨entry, hentry, -⟩ := lookup_of_websockets (h.counts.pos hheld)
  rw [SourceLimits.dropPermit, Option.mem_def.mp hentry]
  exact h.release hentry rfl

end SourceLimits.Exact

namespace SourcePermits

theorem exact_of_exact {p : SourcePermits σ} (horder : ∀ entries, (order entries).Perm entries)
    (h : p.limits.Exact p.permits) : p.Exact order where
  counts := h.counts
  atMost := h.atMost
  size := h.size
  counted _ hsource := SourceLimits.lookup_of_websockets (h.counts.pos hsource)
  kept _ hheld source now :=
    SourceLimits.lookup_makeRoom horder (h.counts.pos hheld) source now

theorem exact_next {p p' : SourcePermits σ} {event : SourcePermitEvent σ}
    (horder : ∀ entries, (order entries).Perm entries) (h : p.limits.Exact p.permits)
    (hnext : p.next order event = some p') : p'.limits.Exact p'.permits := by
  cases event with
  | signin source now =>
    simp only [next, Option.ite_none_right_eq_some, Option.some.injEq] at hnext
    obtain ⟨-, rfl⟩ := hnext
    exact h.admitSignin horder source now
  | refund source now =>
    simp only [next, Option.ite_none_right_eq_some, Option.some.injEq] at hnext
    obtain ⟨-, rfl⟩ := hnext
    exact h.refundSuccessfulSignin source now
  | websocket source now =>
    simp only [next, Option.ite_none_right_eq_some, Option.some.injEq] at hnext
    obtain ⟨-, rfl⟩ := hnext
    exact h.admitWebsocket horder rfl
  | drop source now =>
    simp only [next, Option.ite_none_right_eq_some, Option.some.injEq] at hnext
    obtain ⟨⟨-, hheld⟩, rfl⟩ := hnext
    exact h.dropPermit hheld now

/-- Every run keeps the counters exact. -/
theorem exact_of_run {p : SourcePermits σ} {events : List (SourcePermitEvent σ)}
    (horder : ∀ entries, (order entries).Perm entries)
    (hrun : Run (fun p event p' => next order p event = some p') start events p) :
    p.Exact order := by
  refine exact_of_exact horder (hrun.invariant (I := fun p => p.limits.Exact p.permits)
    (fun h hnext => exact_next horder h hnext) ?_)
  exact ⟨fun _ => rfl, fun _ => Nat.zero_le _, Nat.zero_le _⟩

end SourcePermits

end Sources

/-! ## Users -/

structure UserConcurrencyEntry where
  connections : Nat
  uploads : Nat
deriving DecidableEq

inductive UserConcurrencyKind where
  | connection
  | upload
deriving DecidableEq

namespace UserConcurrencyEntry

def count (entry : UserConcurrencyEntry) : UserConcurrencyKind → Nat
  | .connection => entry.connections
  | .upload => entry.uploads

def setCount (entry : UserConcurrencyEntry) (count : Nat) :
    UserConcurrencyKind → UserConcurrencyEntry
  | .connection => { entry with connections := count }
  | .upload => { entry with uploads := count }

end UserConcurrencyEntry

/-- `UserConcurrency`: a map from users. -/
abbrev UserConcurrency := AList fun _ : Int => UserConcurrencyEntry

namespace UserConcurrency

/-- `entries.entry(user_id).or_default()`. -/
def entryOrDefault (entries : UserConcurrency) (userId : Int) : UserConcurrencyEntry :=
  (entries.lookup userId).getD ⟨0, 0⟩

/-- `try_acquire`.  The entry that `or_default` makes stays when there is no permit. -/
def tryAcquire (entries : UserConcurrency) (userId : Int) (kind : UserConcurrencyKind)
    (limit : Nat) : Bool × UserConcurrency :=
  let entry := entries.entryOrDefault userId
  if limit ≤ entry.count kind then (false, entries.insert userId entry)
  else (true, entries.insert userId (entry.setCount (entry.count kind + 1) kind))

/-- `drop` of a `UserConcurrencyPermit`. -/
def dropPermit (entries : UserConcurrency) (userId : Int) (kind : UserConcurrencyKind) :
    UserConcurrency :=
  match entries.lookup userId with
  | some entry =>
    let entry := entry.setCount (entry.count kind - 1) kind
    if entry.connections = 0 ∧ entry.uploads = 0 then entries.erase userId
    else entries.insert userId entry
  | none => entries

/-- The count of a user. -/
def count (entries : UserConcurrency) (permit : Int × UserConcurrencyKind) : Nat :=
  ((entries.lookup permit.1).map (·.count permit.2)).getD 0

end UserConcurrency

/-- The counts, with the outstanding permits and the limit that was passed when the last permit
of a user and a kind was given. -/
structure UserPermits where
  entries : UserConcurrency
  permits : List (Int × UserConcurrencyKind)
  limit : Int × UserConcurrencyKind → Nat

inductive UserPermitEvent where
  | acquire (userId : Int) (kind : UserConcurrencyKind) (limit : Nat)
  | drop (userId : Int) (kind : UserConcurrencyKind)

namespace UserPermits

def start : UserPermits := ⟨∅, [], fun _ => 0⟩

/-- No limit is zero, and only a permit that is outstanding is dropped. -/
def next (p : UserPermits) : UserPermitEvent → Option UserPermits
  | .acquire userId kind limit =>
    if 1 ≤ limit then
      let (acquired, entries) := p.entries.tryAcquire userId kind limit
      if acquired then
        some ⟨entries, (userId, kind) :: p.permits, Function.update p.limit (userId, kind) limit⟩
      else some ⟨entries, p.permits, p.limit⟩
    else none
  | .drop userId kind =>
    if (userId, kind) ∈ p.permits then
      some ⟨p.entries.dropPermit userId kind, p.permits.erase (userId, kind), p.limit⟩
    else none

/-- The counters are exact and within the limits, and users without permits have no entry. -/
structure Exact (p : UserPermits) : Prop where
  counts : ∀ permit, p.entries.count permit = p.permits.count permit
  atMost : ∀ permit, p.entries.count permit ≤ p.limit permit
  /-- The subtraction of a drop does not saturate. -/
  counted : ∀ permit ∈ p.permits, ∃ entry ∈ p.entries.lookup permit.1, 0 < entry.count permit.2
  noOther : ∀ userId ∈ p.entries, ∃ kind, (userId, kind) ∈ p.permits

end UserPermits

namespace UserConcurrencyEntry

theorem count_setCount (entry : UserConcurrencyEntry) (n : Nat) (kind kind' : UserConcurrencyKind) :
    (entry.setCount n kind).count kind' = if kind' = kind then n else entry.count kind' := by
  cases kind <;> cases kind' <;> rfl

/-- Whether an entry may be removed. -/
theorem idle_iff (entry : UserConcurrencyEntry) :
    (entry.connections = 0 ∧ entry.uploads = 0) ↔ ∀ kind, entry.count kind = 0 := by
  constructor
  · rintro ⟨hconnections, huploads⟩ kind
    cases kind with
    | connection => exact hconnections
    | upload => exact huploads
  · exact fun h => ⟨h .connection, h .upload⟩

end UserConcurrencyEntry

section Users

open UserConcurrencyEntry

variable {entries : UserConcurrency} {entry : UserConcurrencyEntry} {userId user : Int}
  {kind : UserConcurrencyKind} {permits : List (Int × UserConcurrencyKind)}
  {bound : Int × UserConcurrencyKind → Nat} {limit : Nat}

namespace UserConcurrency

theorem count_of_lookup (h : entries.lookup userId = some entry) (kind : UserConcurrencyKind) :
    entries.count (userId, kind) = entry.count kind := by
  rw [count, h]
  rfl

theorem lookup_of_count (h : 0 < entries.count (userId, kind)) :
    ∃ entry ∈ entries.lookup userId, 0 < entry.count kind := by
  rw [count] at h
  cases hlookup : entries.lookup userId with
  | none => simp [hlookup] at h
  | some entry => exact ⟨entry, rfl, by simpa [hlookup] using h⟩

theorem count_entryOrDefault (entries : UserConcurrency) (userId : Int)
    (kind : UserConcurrencyKind) :
    (entries.entryOrDefault userId).count kind = entries.count (userId, kind) := by
  rw [count, entryOrDefault]
  cases entries.lookup userId with
  | none => cases kind <;> rfl
  | some entry => rfl

theorem count_congr {entries' : UserConcurrency} (h : entries'.lookup user = entries.lookup user)
    (kind : UserConcurrencyKind) : entries'.count (user, kind) = entries.count (user, kind) := by
  rw [count, count, h]

theorem count_insert (permit : Int × UserConcurrencyKind) :
    count (AList.insert userId entry entries) permit =
      if permit.1 = userId then entry.count permit.2 else entries.count permit := by
  split
  case isTrue huser =>
    rw [count, huser, AList.lookup_insert]
    rfl
  case isFalse huser => exact count_congr (AList.lookup_insert_ne huser) permit.2

/-- Setting one count of a user's entry sets that count and no other. -/
theorem count_setCount_of_eq {n : Nat} {updated : UserConcurrencyEntry}
    (hupdated : updated = (entries.entryOrDefault userId).setCount n kind)
    (permit : Int × UserConcurrencyKind) :
    (if permit.1 = userId then updated.count permit.2 else entries.count permit) =
      if permit = (userId, kind) then n else entries.count permit := by
  obtain ⟨user, kind'⟩ := permit
  subst hupdated
  rw [count_setCount, count_entryOrDefault]
  by_cases huser : user = userId
  · subst huser
    by_cases hkind : kind' = kind
    · simp [hkind]
    · simp [hkind]
  · simp [huser]

/-- The counts of a table of which each entry counts something. -/
structure Exact (entries : UserConcurrency) (permits : List (Int × UserConcurrencyKind))
    (bound : Int × UserConcurrencyKind → Nat) : Prop where
  counts : Counts entries.count permits
  atMost : ∀ permit, entries.count permit ≤ bound permit
  busy : ∀ userId, ∀ entry ∈ entries.lookup userId, ∃ kind, 0 < entry.count kind

namespace Exact

theorem refuse (h : Exact entries permits bound) (hlimit : 1 ≤ limit)
    (hfull : limit ≤ (entries.entryOrDefault userId).count kind) :
    Exact (AList.insert userId (entries.entryOrDefault userId) entries) permits bound := by
  -- a limit that is reached is not zero, so the user has an entry already
  have hpos : 0 < entries.count (userId, kind) := by
    rw [count_entryOrDefault] at hfull
    omega
  obtain ⟨entry, hentry, -⟩ := lookup_of_count hpos
  have hsame : ∀ user, (AList.insert userId (entries.entryOrDefault userId) entries).lookup user =
      entries.lookup user := by
    intro user
    by_cases huser : user = userId
    · rw [huser, AList.lookup_insert, entryOrDefault, Option.mem_def.mp hentry, Option.getD_some]
    · exact AList.lookup_insert_ne huser
  refine ⟨h.counts.congr fun permit => ?_, fun permit => ?_, fun user e he => ?_⟩
  · exact count_congr (hsame permit.1) permit.2
  · exact Nat.le_trans (Nat.le_of_eq (count_congr (hsame permit.1) permit.2)) (h.atMost permit)
  · exact h.busy user e (hsame user ▸ he)

theorem acquire (h : Exact entries permits bound)
    (hroom : ¬limit ≤ (entries.entryOrDefault userId).count kind) :
    Exact (AList.insert userId ((entries.entryOrDefault userId).setCount
      ((entries.entryOrDefault userId).count kind + 1) kind) entries)
      ((userId, kind) :: permits) (Function.update bound (userId, kind) limit) := by
  rw [count_entryOrDefault] at hroom ⊢
  have hcount : ∀ permit, count (AList.insert userId ((entries.entryOrDefault userId).setCount
      (entries.count (userId, kind) + 1) kind) entries) permit =
      if permit = (userId, kind) then entries.count (userId, kind) + 1
      else entries.count permit :=
    fun permit => (count_insert permit).trans (count_setCount_of_eq rfl permit)
  refine ⟨h.counts.acquire ?_ fun permit hpermit => ?_, fun permit => ?_, fun user e he => ?_⟩
  · rw [hcount, if_pos rfl]
  · rw [hcount, if_neg hpermit]
  · rw [hcount]
    by_cases hpermit : permit = (userId, kind)
    · subst hpermit
      rw [if_pos rfl, Function.update_self]
      omega
    · rw [if_neg hpermit, Function.update_of_ne hpermit]
      exact h.atMost permit
  · by_cases huser : user = userId
    · subst huser
      rw [AList.lookup_insert] at he
      obtain rfl := Option.mem_some_iff.mp he
      exact ⟨kind, by rw [count_setCount, if_pos rfl]; omega⟩
    · rw [AList.lookup_insert_ne huser] at he
      exact h.busy user e he

/-- A drop takes one from its count; whether the entry stays makes no difference to that. -/
theorem count_dropPermit (hlookup : entries.lookup userId = some entry)
    (permit : Int × UserConcurrencyKind) : (entries.dropPermit userId kind).count permit =
      if permit = (userId, kind) then entries.count (userId, kind) - 1
      else entries.count permit := by
  have hdefault : entry = entries.entryOrDefault userId := by
    rw [entryOrDefault, hlookup, Option.getD_some]
  have hupdated : entry.setCount (entry.count kind - 1) kind =
      (entries.entryOrDefault userId).setCount (entries.count (userId, kind) - 1) kind := by
    rw [hdefault, count_entryOrDefault]
  rw [← count_setCount_of_eq hupdated permit, dropPermit, hlookup]
  dsimp only
  split
  case isTrue hidle =>
    by_cases huser : permit.1 = userId
    · rw [if_pos huser, (idle_iff _).mp hidle permit.2, count, huser, AList.lookup_erase]
      rfl
    · rw [if_neg huser]
      exact count_congr (AList.lookup_erase_ne huser) permit.2
  case isFalse => exact count_insert permit

theorem busy_dropPermit (h : Exact entries permits bound)
    (hlookup : entries.lookup userId = some entry) (user : Int) :
    ∀ e ∈ (entries.dropPermit userId kind).lookup user, ∃ kind, 0 < e.count kind := by
  intro e he
  rw [dropPermit, hlookup] at he
  dsimp only at he
  split at he
  case isTrue hidle =>
    by_cases huser : user = userId
    · rw [huser, AList.lookup_erase] at he
      cases he
    · rw [AList.lookup_erase_ne huser] at he
      exact h.busy user e he
  case isFalse hbusy =>
    by_cases huser : user = userId
    · rw [huser, AList.lookup_insert] at he
      obtain rfl := Option.mem_some_iff.mp he
      rw [idle_iff, not_forall] at hbusy
      obtain ⟨kind', hkind⟩ := hbusy
      exact ⟨kind', Nat.pos_of_ne_zero hkind⟩
    · rw [AList.lookup_insert_ne huser] at he
      exact h.busy user e he

theorem drop (h : Exact entries permits bound) (hheld : (userId, kind) ∈ permits) :
    Exact (entries.dropPermit userId kind) (permits.erase (userId, kind)) bound := by
  obtain ⟨entry, hentry, -⟩ := lookup_of_count (h.counts.pos hheld)
  have hcount : ∀ permit, (entries.dropPermit userId kind).count permit =
      if permit = (userId, kind) then entries.count (userId, kind) - 1
      else entries.count permit := count_dropPermit (Option.mem_def.mp hentry)
  refine ⟨h.counts.release ?_ fun permit hpermit => ?_, fun permit => ?_, fun user => ?_⟩
  · rw [hcount, if_pos rfl]
  · rw [hcount, if_neg hpermit]
  · have hle := h.atMost permit
    rw [hcount]
    split
    case isTrue hpermit =>
      rw [hpermit] at hle ⊢
      omega
    case isFalse => exact hle
  · exact h.busy_dropPermit hentry user

end Exact

end UserConcurrency

namespace UserPermits

variable {p p' : UserPermits}

theorem exact_of_exact (h : p.entries.Exact p.permits p.limit) : p.Exact where
  counts := h.counts
  atMost := h.atMost
  counted _ hpermit := UserConcurrency.lookup_of_count (h.counts.pos hpermit)
  noOther userId huser := by
    obtain ⟨entry, hentry⟩ := Option.isSome_iff_exists.mp (AList.lookup_isSome.mpr huser)
    obtain ⟨kind, hkind⟩ := h.busy userId entry hentry
    rw [← UserConcurrency.count_of_lookup hentry, h.counts (userId, kind)] at hkind
    exact ⟨kind, List.count_pos_iff.mp hkind⟩

theorem exact_next {event : UserPermitEvent} (h : p.entries.Exact p.permits p.limit)
    (hnext : p.next event = some p') : p'.entries.Exact p'.permits p'.limit := by
  cases event with
  | acquire userId kind limit =>
    simp only [next, UserConcurrency.tryAcquire, Option.ite_none_right_eq_some] at hnext
    obtain ⟨hlimit, hnext⟩ := hnext
    split at hnext
    case isTrue hfull =>
      obtain rfl := Option.some.inj hnext
      exact h.refuse hlimit hfull
    case isFalse hroom =>
      obtain rfl := Option.some.inj hnext
      exact h.acquire hroom
  | drop userId kind =>
    simp only [next, Option.ite_none_right_eq_some, Option.some.injEq] at hnext
    obtain ⟨hheld, rfl⟩ := hnext
    exact h.drop hheld

/-- Every run keeps the counters exact. -/
theorem exact_of_run {events : List UserPermitEvent}
    (hrun : Run (fun p event p' => next p event = some p') start events p) : p.Exact := by
  refine exact_of_exact (hrun.invariant (I := fun p => p.entries.Exact p.permits p.limit)
    (fun h hnext => exact_next h hnext) ?_)
  exact ⟨fun _ => rfl, fun _ => Nat.zero_le _, fun _ _ he => by cases he⟩

end UserPermits

end Users

/-- In every run the counters of both limits are the numbers of outstanding permits, within their
bounds, and no subtraction of a drop saturates. -/
theorem permits_exact {σ : Type*} [DecidableEq σ]
    {order : List (Sigma fun _ : σ => SourceLimitEntry) →
      List (Sigma fun _ : σ => SourceLimitEntry)}
    (horder : ∀ entries, (order entries).Perm entries) :
    (∀ (events : List (SourcePermitEvent σ)) (p : SourcePermits σ),
      Run (fun p event p' => SourcePermits.next order p event = some p') .start events p →
        p.Exact order) ∧
    (∀ (events : List UserPermitEvent) (p : UserPermits),
      Run (fun p event p' => UserPermits.next p event = some p') .start events p → p.Exact) :=
  ⟨fun _ _ hrun => SourcePermits.exact_of_run horder hrun,
    fun _ _ hrun => UserPermits.exact_of_run hrun⟩

theorem permits_exact_two_sockets :
    (∃ p : SourcePermits Nat,
      Run (fun p event p' => SourcePermits.next id p event = some p') .start
        [.websocket 7 0, .websocket 7 1, .drop 7 2] p ∧ p.Exact id ∧ p.permits = [7]) ∧
    (∃ p : UserPermits, Run (fun p event p' => UserPermits.next p event = some p') .start
        [.acquire 1 .connection 1, .acquire 1 .upload 1, .drop 1 .connection] p ∧ p.Exact ∧
        p.permits = [(1, .upload)]) := by
  obtain ⟨hsources, husers⟩ := @permits_exact Nat _ id fun _ => .refl _
  constructor
  · obtain ⟨p, hp, hpermits⟩ : ∃ p : SourcePermits Nat,
        [.websocket 7 0, .websocket 7 1, .drop 7 2].foldlM (SourcePermits.next id) .start = some p ∧
          p.permits = [7] := ⟨_, rfl, rfl⟩
    have hrun : Run (Guarded (fun _ _ => True)
        fun p event p' => SourcePermits.next id p event = some p') .start _ p :=
      .of_foldlM (fun _ _ => trivial) hp
    exact ⟨p, hrun.of_guarded, hsources _ _ hrun.of_guarded, hpermits⟩
  · obtain ⟨p, hp, hpermits⟩ : ∃ p : UserPermits,
        [.acquire 1 .connection 1, .acquire 1 .upload 1, .drop 1 .connection].foldlM
          UserPermits.next .start = some p ∧ p.permits = [(1, .upload)] := ⟨_, rfl, rfl⟩
    have hrun : Run (Guarded (fun _ _ => True)
        fun p event p' => UserPermits.next p event = some p') .start _ p :=
      .of_foldlM (fun _ _ => trivial) hp
    exact ⟨p, hrun.of_guarded, husers _ _ hrun.of_guarded, hpermits⟩

end Blackglass
