import Blackglass.Lib.Transition
import Blackglass.Lib.Window
import Mathlib.Data.List.AList

/-!
# The limits of a source address

`SourceLimits` of `server.rs`: for each address that asks, the sign-ins it tried in the last
minute and the WebSockets it has open without a session.  A successful sign-in is refunded, when
its password has been checked, by taking the newest attempt from the address's queue.  That need
not be the attempt that succeeded: others of the same address may have been admitted while the
password was checked.
-/

namespace Blackglass

open Window Transition

/-- `SIGNIN_RATE_WINDOW`, in nanoseconds. -/
def signinRateWindow : Nat := 60 * 1000000000

def signinAttemptsPerSource : Nat := 6

def maxUnauthenticatedWsPerSource : Nat := 4

def maxSourceLimitEntries : Nat := 4096

structure SourceLimitEntry where
  signinAttempts : List Nat
  unauthenticatedWebsockets : Nat
  lastSeen : Nat
deriving DecidableEq

/-- Whether an entry is still of use. -/
def SourceLimitEntry.inUse (entry : SourceLimitEntry) (now : Nat) : Bool :=
  0 < entry.unauthenticatedWebsockets || now - entry.lastSeen ≤ signinRateWindow

/-- `SourceLimits`: a map from addresses. -/
abbrev SourceLimits (σ : Type*) := AList fun _ : σ => SourceLimitEntry

namespace SourceLimits

variable {σ : Type*} [DecidableEq σ]
  (order : List (Sigma fun _ : σ => SourceLimitEntry) → List (Sigma fun _ : σ => SourceLimitEntry))

/-- `entries.retain(..)`. -/
def retain (limits : SourceLimits σ) (now : Nat) : SourceLimits σ where
  entries := limits.entries.filter fun e => e.2.inUse now
  nodupKeys := limits.nodupKeys.sublist List.filter_sublist

/-- The address without WebSockets that was not seen for the longest time.  Of several the map
finds the one that comes first in its own `order`. -/
def oldest (limits : SourceLimits σ) : Option σ :=
  let idle := (order limits.entries).filter fun e => e.2.unauthenticatedWebsockets = 0
  (idle.find? fun e => idle.all fun f => e.2.lastSeen ≤ f.2.lastSeen).map (·.1)

def makeRoom (limits : SourceLimits σ) (source : σ) (now : Nat) : SourceLimits σ :=
  let limits := limits.retain now
  if source ∉ limits ∧ maxSourceLimitEntries ≤ limits.entries.length then
    match limits.oldest order with
    | some address => limits.erase address
    | none => limits
  else limits

/-- `entry`: the map with an entry of the address, which is also returned, if there is room. -/
def entry (limits : SourceLimits σ) (source : σ) (now : Nat) :
    SourceLimits σ × Option SourceLimitEntry :=
  let limits := limits.makeRoom order source now
  if source ∉ limits ∧ maxSourceLimitEntries ≤ limits.entries.length then (limits, none)
  else
    match limits.lookup source with
    | some entry => (limits, some entry)
    | none =>
      let entry := ⟨[], 0, now⟩
      (limits.insert source entry, some entry)

def admitSignin (limits : SourceLimits σ) (source : σ) (now : Nat) : Bool × SourceLimits σ :=
  match limits.entry order source now with
  | (limits, none) => (false, limits)
  | (limits, some entry) =>
    let attempts := expire id signinRateWindow now entry.signinAttempts
    if signinAttemptsPerSource ≤ attempts.length then
      (false, limits.insert source { entry with signinAttempts := attempts, lastSeen := now })
    else
      (true, limits.insert source
        { entry with signinAttempts := attempts ++ [now], lastSeen := now })

def refundSuccessfulSignin (limits : SourceLimits σ) (source : σ) (now : Nat) : SourceLimits σ :=
  match limits.lookup source with
  | some entry => limits.insert source
      { entry with signinAttempts := entry.signinAttempts.dropLast, lastSeen := now }
  | none => limits

def admitWebsocket (limits : SourceLimits σ) (source : σ) (now : Nat) : Bool × SourceLimits σ :=
  match limits.entry order source now with
  | (limits, none) => (false, limits)
  | (limits, some entry) =>
    if maxUnauthenticatedWsPerSource ≤ entry.unauthenticatedWebsockets then
      (false, limits.insert source { entry with lastSeen := now })
    else
      (true, limits.insert source
        { entry with
          unauthenticatedWebsockets := entry.unauthenticatedWebsockets + 1
          lastSeen := now })

/-- `drop` of a `SourceConnectionPermit`. -/
def dropPermit (limits : SourceLimits σ) (source : σ) (now : Nat) : SourceLimits σ :=
  match limits.lookup source with
  | some entry => limits.insert source
      { entry with
        unauthenticatedWebsockets := entry.unauthenticatedWebsockets - 1
        lastSeen := now }
  | none => limits

/-- The queue of an address. -/
def attempts (limits : SourceLimits σ) (source : σ) : List Nat :=
  ((limits.lookup source).map (·.signinAttempts)).getD []

end SourceLimits

/-! ## Runs -/

/-- A sign-in that was admitted. -/
structure SigninAttempt (σ : Type*) where
  source : σ
  admittedAt : Nat
  refunded : Bool
deriving DecidableEq

/-- When the sign-ins of an address were admitted that have not been refunded. -/
def failures {σ : Type*} [DecidableEq σ] (signins : List (SigninAttempt σ)) (source : σ) :
    List Nat :=
  (signins.filter fun s => s.source = source && !s.refunded).map (·.admittedAt)

/-- The limits, with all sign-ins that were ever admitted, in order. -/
structure SigninHistory (σ : Type*) where
  limits : SourceLimits σ
  clock : Nat
  signins : List (SigninAttempt σ)

inductive SourceEvent (σ : Type*) where
  | signin (source : σ) (now : Nat)
  /-- The sign-in with this number has succeeded. -/
  | succeeded (signin : Nat) (now : Nat)
  | websocket (source : σ) (now : Nat)
  | dropPermit (source : σ) (now : Nat)

/-- The address that an event names. -/
def SourceEvent.source? {σ : Type*} : SourceEvent σ → Option σ
  | signin source _ | websocket source _ | dropPermit source _ => some source
  | succeeded _ _ => none

namespace SigninHistory

variable {σ : Type*} [DecidableEq σ]
  (order : List (Sigma fun _ : σ => SourceLimitEntry) → List (Sigma fun _ : σ => SourceLimitEntry))

def start : SigninHistory σ := ⟨∅, 0, []⟩

/-- The clock does not go back, and a sign-in succeeds once. -/
def next (h : SigninHistory σ) : SourceEvent σ → Option (SigninHistory σ)
  | .signin source now =>
    if h.clock ≤ now then
      let (admitted, limits) := h.limits.admitSignin order source now
      some ⟨limits, now, if admitted then h.signins ++ [⟨source, now, false⟩] else h.signins⟩
    else none
  | .succeeded i now =>
    match h.signins[i]? with
    | some signin =>
      if h.clock ≤ now ∧ signin.refunded = false then
        some ⟨h.limits.refundSuccessfulSignin signin.source now, now,
          h.signins.set i { signin with refunded := true }⟩
      else none
    | none => none
  | .websocket source now =>
    if h.clock ≤ now then some ⟨(h.limits.admitWebsocket order source now).2, now, h.signins⟩
    else none
  | .dropPermit source now =>
    if h.clock ≤ now then some ⟨h.limits.dropPermit source now, now, h.signins⟩ else none

/-- At most six sign-ins of an address in any minute are not refunded. -/
def Limited (h : SigninHistory σ) : Prop :=
  ∀ source t, ((failures h.signins source).filter fun s =>
    s ≤ t && t < s + signinRateWindow).length ≤ signinAttemptsPerSource

/-- A sign-in that is tried finds a queue with at least as many entries of the last minute as its
address has failures. -/
def CountsFailures (h : SigninHistory σ) : SourceEvent σ → Prop
  | .signin source now => (recent id signinRateWindow now (failures h.signins source)).length ≤
      (recent id signinRateWindow now (h.limits.attempts source)).length
  | _ => True

instance (h : SigninHistory σ) : DecidablePred h.CountsFailures
  | .signin _ _ => Nat.decLe _ _
  | .succeeded _ _ | .websocket _ _ | .dropPermit _ _ => .isTrue trivial

/-- What a refund takes from the queue is the attempt that succeeded, or one of the same time, or
too old to count. -/
def RefundsNewest (h : SigninHistory σ) : SourceEvent σ → Prop
  | .succeeded i now => ∀ signin ∈ h.signins[i]?,
      ∀ newest ∈ (h.limits.attempts signin.source).getLast?,
        newest = signin.admittedAt ∨ signinRateWindow ≤ now - newest
  | _ => True

end SigninHistory

/-! ## One address at a time -/

section

variable {σ : Type*} [DecidableEq σ]
  {order : List (Sigma fun _ : σ => SourceLimitEntry) → List (Sigma fun _ : σ => SourceLimitEntry)}
  {limits limits' : SourceLimits σ} {source : σ} {sources : List σ} {now clock : Nat}
  {entry : SourceLimitEntry} {history : List Nat}

open SourceLimits

theorem lookup_retain (source : σ) :
    (limits.retain now).lookup source = (limits.lookup source).filter (·.inUse now) := by
  refine Option.ext fun e => ?_
  rw [← Option.mem_def, ← Option.mem_def, AList.mem_lookup_iff, Option.mem_filter_iff,
    AList.mem_lookup_iff, retain, List.mem_filter]

theorem mem_of_mem_retain (h : source ∈ limits.retain now) : source ∈ limits := by
  rw [← AList.lookup_isSome] at h ⊢
  rw [lookup_retain] at h
  exact Option.isSome_of_isSome_filter _ _ h

omit [DecidableEq σ] in
/-- A table of fewer addresses than it has room for is not full. -/
theorem not_full (hknown : ∀ s ∈ limits, s ∈ sources) (hsource : source ∈ sources)
    (hroom : sources.length ≤ maxSourceLimitEntries) :
    ¬(source ∉ limits ∧ maxSourceLimitEntries ≤ limits.entries.length) := by
  rintro ⟨hnew, hfull⟩
  have hnodup : (source :: limits.keys).Nodup := List.nodup_cons.mpr ⟨hnew, limits.keys_nodup⟩
  have hsub : source :: limits.keys ⊆ sources := by
    intro s hs
    rcases List.mem_cons.mp hs with rfl | hs
    · exact hsource
    · exact hknown s hs
  have hle := (List.subperm_of_subset hnodup hsub).length_le
  have hlength : limits.keys.length = limits.entries.length := List.length_map _
  rw [List.length_cons] at hle
  omega

variable (order now) in
/-- Then an entry is to be had, with the queue that was kept of it. -/
theorem entry_of_room (hknown : ∀ s ∈ limits, s ∈ sources) (hsource : source ∈ sources)
    (hroom : sources.length ≤ maxSourceLimitEntries) :
    ∃ limits' entry, limits.entry order source now = (limits', some entry) ∧
      entry.signinAttempts = (limits.retain now).attempts source ∧
      ∀ s, s ≠ source → limits'.lookup s = (limits.retain now).lookup s := by
  have hknown' : ∀ s ∈ limits.retain now, s ∈ sources :=
    fun s hs => hknown s (mem_of_mem_retain hs)
  have hfull := not_full hknown' hsource hroom
  simp only [SourceLimits.entry, makeRoom, if_neg hfull]
  cases hlookup : (limits.retain now).lookup source with
  | some entry =>
    refine ⟨_, entry, rfl, ?_, fun _ _ => rfl⟩
    simp [SourceLimits.attempts, hlookup]
  | none =>
    refine ⟨_, _, rfl, ?_, fun s hs => AList.lookup_insert_ne hs⟩
    simp [SourceLimits.attempts, hlookup]

/-- At `clock`, the queue of each address stands for the failures of that address. -/
structure Faithful (sources : List σ) (limits : SourceLimits σ) (clock : Nat)
    (failed : σ → List Nat) : Prop where
  known : ∀ s ∈ limits, s ∈ sources
  seen : ∀ s, ∀ entry ∈ limits.lookup s, ∀ t ∈ entry.signinAttempts, t ≤ entry.lastSeen
  tracks : ∀ s, Tracks id signinRateWindow clock (limits.attempts s) (failed s)

namespace Faithful

variable {failed failed' : σ → List Nat}

theorem later (h : Faithful sources limits clock failed) (hle : clock ≤ now) :
    Faithful sources limits now failed where
  known := h.known
  seen := h.seen
  tracks s := (h.tracks s).later hle

/-- An address that is dropped was not seen for longer than a failure counts. -/
theorem retain (h : Faithful sources limits clock failed) (hle : clock ≤ now) :
    Faithful sources (limits.retain now) now failed where
  known s hs := h.known s (mem_of_mem_retain hs)
  seen s entry hentry := by
    rw [lookup_retain] at hentry
    exact h.seen s entry (Option.mem_filter_iff.mp hentry).1
  tracks s := by
    have htracks := (h.tracks s).later hle
    cases hlookup : limits.lookup s with
    | none =>
      have hnone : (limits.retain now).attempts s = limits.attempts s := by
        simp [SourceLimits.attempts, lookup_retain, hlookup]
      rwa [hnone]
    | some entry =>
      have hattempts : limits.attempts s = entry.signinAttempts := by
        simp [SourceLimits.attempts, hlookup]
      have hretained : (limits.retain now).attempts s =
          if entry.inUse now then entry.signinAttempts else [] := by
        simp only [SourceLimits.attempts, lookup_retain, hlookup, Option.filter_some]
        split_ifs <;> rfl
      rw [hretained]
      split_ifs with huse
      · exact hattempts ▸ htracks
      · have hold : recent id signinRateWindow now (limits.attempts s) = [] := by
          refine List.filter_eq_nil_iff.mpr fun t ht => ?_
          have hle := h.seen s entry hlookup t (hattempts ▸ ht)
          simp only [SourceLimitEntry.inUse, Bool.or_eq_true, decide_eq_true_eq, not_or, not_le,
            not_lt] at huse
          simp only [id_eq, decide_eq_true_eq, not_lt]
          omega
        refine ⟨.nil, by simp, ?_⟩
        rw [recent_nil, ← hold]
        exact htracks.same

/-- One address gets a new entry. -/
theorem insert (h : Faithful sources limits now failed) (hsource : source ∈ sources)
    (hother : ∀ s, s ≠ source → limits'.lookup s = limits.lookup s)
    (hseen : entry.lastSeen = now)
    (htracks : Tracks id signinRateWindow now entry.signinAttempts (failed' source))
    (hfailed : ∀ s, s ≠ source → failed' s = failed s) :
    Faithful sources (limits'.insert source entry) now failed' := by
  have hlookup : ∀ s, (limits'.insert source entry).lookup s =
      if s = source then some entry else limits.lookup s := by
    intro s
    split_ifs with hs
    · rw [hs, AList.lookup_insert]
    · rw [AList.lookup_insert_ne hs, hother s hs]
  refine ⟨fun s hs => ?_, fun s e he => ?_, fun s => ?_⟩
  · rw [← AList.lookup_isSome, hlookup] at hs
    split_ifs at hs with heq
    · exact heq ▸ hsource
    · exact h.known s (AList.lookup_isSome.mp hs)
  · rw [hlookup] at he
    split_ifs at he with heq
    · rw [← Option.mem_some_iff.mp he, hseen]
      exact htracks.past
    · exact h.seen s e he
  · have hattempts : (SourceLimits.attempts (limits'.insert source entry) s) =
        if s = source then entry.signinAttempts else limits.attempts s := by
      rw [SourceLimits.attempts, hlookup]
      split_ifs <;> rfl
    rw [hattempts]
    split_ifs with heq
    · rwa [heq]
    · rw [hfailed s heq]
      exact h.tracks s

/-- Every queue stands for itself. -/
theorem self (h : Faithful sources limits clock failed) :
    Faithful sources limits clock limits.attempts where
  known := h.known
  seen := h.seen
  tracks s := (h.tracks s).self (.refl _)

variable (order) in
theorem admitSignin (h : Faithful sources limits clock failed) (hle : clock ≤ now)
    (hroom : sources.length ≤ maxSourceLimitEntries) (hsource : source ∈ sources) :
    ((limits.admitSignin order source now).1 = true →
      (recent id signinRateWindow now (limits.attempts source)).length < signinAttemptsPerSource) ∧
      Faithful sources (limits.admitSignin order source now).2 now fun s =>
        if (limits.admitSignin order source now).1 = true ∧ s = source then failed s ++ [now]
        else failed s := by
  have hkept := h.retain hle
  obtain ⟨limits', entry, hentry, hattempts, hother⟩ :=
    entry_of_room order now h.known hsource hroom
  have htracks : Tracks id signinRateWindow now entry.signinAttempts (failed source) :=
    hattempts ▸ hkept.tracks source
  have hqueue : Tracks id signinRateWindow now entry.signinAttempts (limits.attempts source) :=
    hattempts ▸ (h.self.retain hle).tracks source
  have hcount := hqueue.expire_perm.length_eq
  by_cases hfull : signinAttemptsPerSource ≤
      (expire id signinRateWindow now entry.signinAttempts).length
  · simp only [SourceLimits.admitSignin, hentry, if_pos hfull, Bool.false_eq_true, false_and,
      if_false, false_implies, true_and]
    exact hkept.insert hsource hother rfl htracks.expire fun _ _ => rfl
  · simp only [SourceLimits.admitSignin, hentry, if_neg hfull, true_and, true_implies]
    refine ⟨hcount ▸ not_le.mp hfull, hkept.insert hsource hother rfl ?_ fun s hne => if_neg hne⟩
    rw [if_pos rfl]
    exact htracks.expire.push rfl

theorem admitWebsocket (h : Faithful sources limits clock failed) (hle : clock ≤ now)
    (hroom : sources.length ≤ maxSourceLimitEntries) (hsource : source ∈ sources) :
    Faithful sources (limits.admitWebsocket order source now).2 now failed := by
  have hkept := h.retain hle
  obtain ⟨limits', entry, hentry, hattempts, hother⟩ :=
    entry_of_room order now h.known hsource hroom
  have htracks : Tracks id signinRateWindow now entry.signinAttempts (failed source) :=
    hattempts ▸ hkept.tracks source
  simp only [SourceLimits.admitWebsocket, hentry]
  split_ifs
  · exact hkept.insert hsource hother rfl htracks fun _ _ => rfl
  · exact hkept.insert hsource hother rfl htracks fun _ _ => rfl

theorem dropPermit (h : Faithful sources limits clock failed) (hle : clock ≤ now) :
    Faithful sources (limits.dropPermit source now) now failed := by
  have hlater := h.later hle
  unfold SourceLimits.dropPermit
  split
  · rename_i entry hentry
    have hmem : source ∈ limits := AList.lookup_isSome.mp (by simp [hentry])
    have htracks := hlater.tracks source
    rw [SourceLimits.attempts, hentry] at htracks
    exact hlater.insert (h.known source hmem) (fun _ _ => rfl) rfl htracks fun _ _ => rfl
  · exact hlater

theorem refund (h : Faithful sources limits clock failed) (hle : clock ≤ now)
    (hpopped : Tracks id signinRateWindow now (limits.attempts source).dropLast (failed' source))
    (hother : ∀ s, s ≠ source → failed' s = failed s) :
    Faithful sources (limits.refundSuccessfulSignin source now) now failed' := by
  have hlater := h.later hle
  unfold refundSuccessfulSignin
  split
  · rename_i entry hentry
    have hmem : source ∈ limits := AList.lookup_isSome.mp (by simp [hentry])
    rw [SourceLimits.attempts, hentry] at hpopped
    exact hlater.insert (h.known _ hmem) (fun _ _ => rfl) rfl hpopped hother
  · rename_i hentry
    refine { hlater with tracks := fun s => ?_ }
    by_cases hsource : s = source
    · rw [SourceLimits.attempts, hentry] at hpopped
      rw [hsource, SourceLimits.attempts, hentry]
      exact hpopped
    · rw [hother s hsource]
      exact hlater.tracks s

end Faithful

/-! ## One event -/

variable {h h' : SigninHistory σ}

theorem failures_append (signins signins' : List (SigninAttempt σ)) (source : σ) :
    failures (signins ++ signins') source =
      failures signins source ++ failures signins' source := by
  simp [failures]

theorem failures_cons_of_ne {signin : SigninAttempt σ} (hne : source ≠ signin.source)
    (signins : List (SigninAttempt σ)) :
    failures (signin :: signins) source = failures signins source := by
  simp [failures, Ne.symm hne]

/-- The failures after a sign-in that was admitted or not. -/
theorem failures_ite (admitted : Bool) (signins : List (SigninAttempt σ)) :
    failures (if admitted = true then signins ++ [⟨source, now, false⟩] else signins) = fun s =>
      if admitted = true ∧ s = source then failures signins s ++ [now] else failures signins s := by
  funext s
  by_cases hs : s = source <;> cases admitted <;> simp [failures, hs, Ne.symm]

theorem failures_cons_of_refunded {signin : SigninAttempt σ} (hrefunded : signin.refunded = true)
    (signins : List (SigninAttempt σ)) :
    failures (signin :: signins) source = failures signins source := by
  simp [failures, hrefunded]

theorem failures_cons_self {signin : SigninAttempt σ} (hrefunded : signin.refunded = false)
    (signins : List (SigninAttempt σ)) : failures (signin :: signins) signin.source =
      signin.admittedAt :: failures signins signin.source := by
  simp [failures, hrefunded]

/-- A refund takes one failure from its address. -/
theorem failures_set {signins : List (SigninAttempt σ)} {i : Nat} {signin : SigninAttempt σ}
    (hi : signins[i]? = some signin) (hrefunded : signin.refunded = false) :
    (failures signins signin.source).Perm (signin.admittedAt ::
        failures (signins.set i { signin with refunded := true }) signin.source) ∧
      ∀ s, s ≠ signin.source →
        failures (signins.set i { signin with refunded := true }) s = failures signins s := by
  obtain ⟨pre, post, hsplit, hset⟩ : ∃ pre post, signins = pre ++ signin :: post ∧
      signins.set i { signin with refunded := true } =
        pre ++ { signin with refunded := true } :: post := by
    obtain ⟨hlt, hget⟩ := List.getElem?_eq_some_iff.mp hi
    refine ⟨signins.take i, signins.drop (i + 1), ?_, ?_⟩
    · rw [← hget, ← List.drop_eq_getElem_cons hlt, List.take_append_drop]
    · rw [List.set_eq_take_append_cons_drop, if_pos hlt]
  rw [hset, hsplit]
  constructor
  · rw [failures_append, failures_append, failures_cons_self hrefunded,
      failures_cons_of_refunded rfl]
    exact List.perm_middle
  · intro s hs
    rw [failures_append, failures_append, failures_cons_of_refunded rfl, failures_cons_of_ne hs]

/-- A refund of what is newest in the queue, or of a queue in which nothing counts. -/
theorem tracks_dropLast {queue failed failed' : List Nat} {refunded : Nat}
    (h : Tracks id signinRateWindow now queue failed) (hperm : failed.Perm (refunded :: failed'))
    (hnewest : ∀ newest ∈ queue.getLast?,
      newest = refunded ∨ signinRateWindow ≤ now - newest) :
    Tracks id signinRateWindow now queue.dropLast failed' := by
  have hsub : failed' ⊆ failed := fun t ht => hperm.mem_iff.mpr (List.mem_cons_of_mem _ ht)
  rcases List.eq_nil_or_concat queue with rfl | ⟨queue, newest, rfl⟩
  · exact h.of_old rfl (.refl _) hsub
  rw [List.concat_eq_append] at h hnewest ⊢
  rcases hnewest newest (by simp) with rfl | hold
  · rw [List.dropLast_concat]
    exact h.pop hperm
  · refine h.of_old (List.filter_eq_nil_iff.mpr fun t ht => ?_) (List.dropLast_sublist _) hsub
    have hle : t ≤ newest := by
      rcases List.mem_append.mp ht with ht | ht
      · exact (List.pairwise_append.mp h.ordered).2.2 t ht newest List.mem_cons_self
      · exact Nat.le_of_eq (List.mem_singleton.mp ht)
    simp only [id_eq, decide_eq_true_eq, not_lt]
    omega

namespace SigninHistory

theorem Limited.append (hl : h.Limited)
    (hroom : (recent id signinRateWindow now (failures h.signins source)).length <
      signinAttemptsPerSource) :
    Limited ⟨limits, now, h.signins ++ [⟨source, now, false⟩]⟩ := by
  intro s t
  have hold := hl s t
  rw [failures_append, List.filter_append, List.length_append]
  by_cases hs : s = source
  · subst hs
    have hnew : failures [⟨s, now, false⟩] s = [now] := failures_cons_self rfl []
    rw [hnew]
    by_cases ht : now ≤ t ∧ t < now + signinRateWindow
    · -- what the minute up to `t` has of the past is recent at `now`
      have hle : ((failures h.signins s).filter fun s =>
          s ≤ t && t < s + signinRateWindow).length ≤
          (recent id signinRateWindow now (failures h.signins s)).length := by
        simp only [recent, ← List.countP_eq_length_filter]
        refine List.countP_mono_left fun a _ ha => ?_
        simp only [Bool.and_eq_true, decide_eq_true_eq] at ha
        exact decide_eq_true (by simp only [id_eq]; omega)
      have hone := List.length_filter_le (fun s => s ≤ t && t < s + signinRateWindow) [now]
      rw [List.length_singleton] at hone
      omega
    · rw [List.filter_cons_of_neg (by simpa using ht), List.filter_nil, List.length_nil]
      exact hold
  · rw [failures_cons_of_ne hs]
    exact hold

theorem Limited.of_subperm (hl : h.Limited)
    (hsub : ∀ s, (failures h'.signins s).Subperm (failures h.signins s)) : h'.Limited :=
  fun s t => le_trans ((hsub s).filter _).length_le (hl s t)

theorem next_signin (hnext : h.next order (.signin source now) = some h') :
    h.clock ≤ now ∧ h' = ⟨(h.limits.admitSignin order source now).2, now,
      if (h.limits.admitSignin order source now).1 = true then h.signins ++ [⟨source, now, false⟩]
      else h.signins⟩ := by
  simp only [next, Option.ite_none_right_eq_some, Option.some.injEq] at hnext
  exact ⟨hnext.1, hnext.2.symm⟩

theorem next_succeeded {i : Nat} (hnext : h.next order (.succeeded i now) = some h') :
    ∃ signin, h.signins[i]? = some signin ∧ h.clock ≤ now ∧ signin.refunded = false ∧
      h' = ⟨h.limits.refundSuccessfulSignin signin.source now, now,
        h.signins.set i { signin with refunded := true }⟩ := by
  simp only [next] at hnext
  cases hi : h.signins[i]? with
  | none => simp [hi] at hnext
  | some signin =>
    simp only [hi, Option.ite_none_right_eq_some, Option.some.injEq] at hnext
    obtain ⟨⟨hle, hrefunded⟩, rfl⟩ := hnext
    exact ⟨signin, rfl, hle, hrefunded, rfl⟩

theorem next_websocket (hnext : h.next order (.websocket source now) = some h') :
    h.clock ≤ now ∧ h' = ⟨(h.limits.admitWebsocket order source now).2, now, h.signins⟩ := by
  simp only [next, Option.ite_none_right_eq_some, Option.some.injEq] at hnext
  exact ⟨hnext.1, hnext.2.symm⟩

theorem next_dropPermit (hnext : h.next order (.dropPermit source now) = some h') :
    h.clock ≤ now ∧ h' = ⟨h.limits.dropPermit source now, now, h.signins⟩ := by
  simp only [next, Option.ite_none_right_eq_some, Option.some.injEq] at hnext
  exact ⟨hnext.1, hnext.2.symm⟩

/-- The queues are in order, whatever they stand for. -/
def Ordered (sources : List σ) (h : SigninHistory σ) : Prop :=
  ∃ failed, Faithful sources h.limits h.clock failed

/-- The queues keep up with the failures. -/
def KeepsUp (sources : List σ) (h : SigninHistory σ) : Prop :=
  Faithful sources h.limits h.clock (failures h.signins)

section

variable {event : SourceEvent σ} (hroom : sources.length ≤ maxSourceLimitEntries)
  (hsource : ∀ s ∈ event.source?, s ∈ sources) (hnext : h.next order event = some h')

include hroom hsource hnext

theorem Ordered.next (ho : Ordered sources h) : Ordered sources h' := by
  obtain ⟨failed, hf⟩ := ho
  cases event with
  | signin source now =>
    obtain ⟨hle, rfl⟩ := next_signin hnext
    exact ⟨_, (hf.admitSignin order hle hroom (hsource source rfl)).2⟩
  | succeeded i now =>
    obtain ⟨signin, -, hle, -, rfl⟩ := next_succeeded hnext
    have hqueue := ((hf.later hle).tracks signin.source).self (List.dropLast_sublist _)
    refine ⟨Function.update failed signin.source (h.limits.attempts signin.source).dropLast,
      hf.refund hle ?_ fun s hs => Function.update_of_ne hs _ _⟩
    rwa [Function.update_self]
  | websocket source now =>
    obtain ⟨hle, rfl⟩ := next_websocket hnext
    exact ⟨failed, hf.admitWebsocket hle hroom (hsource source rfl)⟩
  | dropPermit source now =>
    obtain ⟨hle, rfl⟩ := next_dropPermit hnext
    exact ⟨failed, hf.dropPermit hle⟩

/-- Where the queue counts all failures, a sign-in is admitted only where there is room. -/
theorem Limited.next (hl : h.Limited) (ho : Ordered sources h) (hcounts : h.CountsFailures event) :
    h'.Limited := by
  obtain ⟨failed, hf⟩ := ho
  cases event with
  | signin source now =>
    obtain ⟨hle, rfl⟩ := next_signin hnext
    have hadmitted := (hf.admitSignin order hle hroom (hsource source rfl)).1
    cases hanswer : (h.limits.admitSignin order source now).1 with
    | false => exact hl
    | true => exact hl.append (lt_of_le_of_lt hcounts (hadmitted hanswer))
  | succeeded i now =>
    obtain ⟨signin, hi, -, hrefunded, rfl⟩ := next_succeeded hnext
    obtain ⟨hperm, hother⟩ := failures_set hi hrefunded
    refine hl.of_subperm fun s => ?_
    by_cases hs : s = signin.source
    · rw [hs]
      exact (List.sublist_cons_self _ _).subperm.trans hperm.symm.subperm
    · rw [hother s hs]
  | websocket source now =>
    obtain ⟨-, rfl⟩ := next_websocket hnext
    exact hl
  | dropPermit source now =>
    obtain ⟨-, rfl⟩ := next_dropPermit hnext
    exact hl

theorem KeepsUp.next (hf : KeepsUp sources h) (hnewest : h.RefundsNewest event) :
    KeepsUp sources h' := by
  cases event with
  | signin source now =>
    obtain ⟨hle, rfl⟩ := next_signin hnext
    have hadmitted := (Faithful.admitSignin order hf hle hroom (hsource source rfl)).2
    rw [← failures_ite] at hadmitted
    exact hadmitted
  | succeeded i now =>
    obtain ⟨signin, hi, hle, hrefunded, rfl⟩ := next_succeeded hnext
    obtain ⟨hperm, hother⟩ := failures_set hi hrefunded
    have htracks := (Faithful.later hf hle).tracks signin.source
    exact Faithful.refund hf hle (tracks_dropLast htracks hperm (hnewest signin hi)) hother
  | websocket source now =>
    obtain ⟨hle, rfl⟩ := next_websocket hnext
    exact Faithful.admitWebsocket hf hle hroom (hsource source rfl)
  | dropPermit source now =>
    obtain ⟨hle, rfl⟩ := next_dropPermit hnext
    exact Faithful.dropPermit hf hle

end

/-- Queues that keep up count all failures. -/
theorem KeepsUp.countsFailures (hf : KeepsUp sources h) {event : SourceEvent σ}
    (hnext : h.next order event = some h') : h.CountsFailures event := by
  cases event with
  | signin source now =>
    have hle := (next_signin hnext).1
    exact Nat.le_of_eq ((Faithful.later hf hle).tracks source).same.length_eq.symm
  | succeeded _ _ | websocket _ _ | dropPermit _ _ => trivial

theorem keepsUp_start : KeepsUp sources (start : SigninHistory σ) :=
  ⟨by simp [start], by simp [start], fun _ => Tracks.nil⟩

variable (order sources) in
/-- The runs of the limiter with at most these addresses, whose events all meet the condition. -/
def Runs (guard : SigninHistory σ → SourceEvent σ → Prop) (h : SigninHistory σ)
    (events : List (SourceEvent σ)) (h' : SigninHistory σ) : Prop :=
  Run (Guarded (fun h event => (∀ s ∈ event.source?, s ∈ sources) ∧ guard h event)
    fun h event h' => h.next order event = some h') h events h'

theorem KeepsUp.runs {events : List (SourceEvent σ)} (hf : KeepsUp sources h)
    (hroom : sources.length ≤ maxSourceLimitEntries)
    (hrun : Runs order sources RefundsNewest h events h') :
    Runs order sources CountsFailures h events h' := by
  induction hrun with
  | nil h => exact .nil h
  | cons hstep _ ih =>
    obtain ⟨⟨hsource, hnewest⟩, hnext⟩ := hstep
    exact .cons ⟨⟨hsource, hf.countsFailures hnext⟩, hnext⟩
      (ih (hf.next hroom hsource hnext hnewest))

end SigninHistory

/-- As long as the queues count all failures whenever somebody signs in, no address has more than
six sign-ins in a minute that are not refunded.  They do where every refund takes the attempt that
succeeded from the queue, or one that is as good for the count. -/
theorem failed_signins_limited (hroom : sources.length ≤ maxSourceLimitEntries)
    {events : List (SourceEvent σ)} :
    (SigninHistory.Runs order sources SigninHistory.CountsFailures .start events h → h.Limited) ∧
      (SigninHistory.Runs order sources SigninHistory.RefundsNewest .start events h →
        SigninHistory.Runs order sources SigninHistory.CountsFailures .start events h) := by
  refine ⟨fun hrun => ?_, fun hrun => SigninHistory.keepsUp_start.runs hroom hrun⟩
  have hstart : SigninHistory.Ordered sources (.start : SigninHistory σ) ∧
      (.start : SigninHistory σ).Limited :=
    ⟨⟨_, SigninHistory.keepsUp_start⟩, fun _ _ => Nat.zero_le _⟩
  refine (Run.invariant_of_guard
    (I := fun h => SigninHistory.Ordered sources h ∧ h.Limited) ?_ hstart hrun).2
  rintro h event h' ⟨ho, hl⟩ ⟨hsource, hcounts⟩ hnext
  exact ⟨ho.next hroom hsource hnext, hl.next hroom hsource hnext ho hcounts⟩

end

/-- Two sign-ins overlap and both succeed, the slow one after the fast one was tried: the first
refund takes the wrong entry, but when somebody signs in again the queue is right. -/
theorem failed_signins_limited_of_overlap :
    ∃ h, SigninHistory.Runs id [()] SigninHistory.CountsFailures .start
        [.signin () 0, .signin () 1, .succeeded 0 2, .succeeded 1 3, .signin () 4] h ∧
      h.Limited := by
  have hrun : SigninHistory.Runs id [()] SigninHistory.CountsFailures .start
      [.signin () 0, .signin () 1, .succeeded 0 2, .succeeded 1 3, .signin () 4]
      ⟨AList.singleton () ⟨[4], 0, 4⟩, 4, [⟨(), 0, true⟩, ⟨(), 1, true⟩, ⟨(), 4, false⟩]⟩ := by
    have hknown : ∀ event : SourceEvent Unit, ∀ s ∈ event.source?, s ∈ [()] := by simp
    exact .cons ⟨⟨hknown _, by decide⟩, rfl⟩ <| .cons ⟨⟨hknown _, by decide⟩, rfl⟩ <|
      .cons ⟨⟨hknown _, trivial⟩, rfl⟩ <| .cons ⟨⟨hknown _, trivial⟩, rfl⟩ <|
      .cons ⟨⟨hknown _, by decide⟩, rfl⟩ <| .nil _
  exact ⟨_, hrun, (failed_signins_limited (by decide)).1 hrun⟩

/-- A sign-in whose password is checked for five seconds, five wrong ones of the same address in
the meantime, and two more a minute after the first. -/
def slowSuccess : List (SourceEvent Unit) :=
  [.signin () 0] ++ List.replicate 5 (.signin () 4000000000) ++ [.succeeded 0 5000000000] ++
    List.replicate 2 (.signin () 60000000000)

/-- The refund takes the attempt of second 4 from the queue and leaves the one of second 0, which
is old enough to be forgotten at second 60: all seven wrong ones are admitted. -/
theorem seven_failed_signins :
    ∃ h, Run (fun h event h' => SigninHistory.next id h event = some h') .start slowSuccess h ∧
      ((failures h.signins ()).filter fun s =>
        s ≤ 60000000000 && 60000000000 < s + signinRateWindow).length = 7 := by
  have hend : ∃ h, slowSuccess.foldlM (SigninHistory.next id) .start = some h ∧
      failures h.signins () = List.replicate 5 4000000000 ++ List.replicate 2 60000000000 :=
    ⟨_, rfl, by decide⟩
  obtain ⟨h, hfold, hfailures⟩ := hend
  have hrun : Run (Guarded (fun _ _ => True) fun h event h' => SigninHistory.next id h event =
    some h') .start slowSuccess h := Run.of_foldlM (fun _ _ => trivial) hfold
  refine ⟨h, hrun.of_guarded, ?_⟩
  rw [hfailures]
  decide

end Blackglass
