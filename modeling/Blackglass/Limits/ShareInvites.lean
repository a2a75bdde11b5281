import Blackglass.Lib.Window
import Mathlib.Data.Finset.Card
import Mathlib.Data.Finset.Dedup

/-!
# The limiter of share invitations

`ShareInviteLimits` of `server.rs` keeps the admitted invitations of the last hour in a queue and
counts five overlapping budgets over it.  Of an invitation's target it only keeps a keyed digest.
`Admissible` is what the limiter is for: the five budgets, counted over everything that was ever
admitted.
-/

namespace Blackglass

open Window

/-- `SHARE_INVITE_WINDOW`, in nanoseconds. -/
def shareInviteWindow : Nat := 60 * 60 * 1000000000

def maxShareInviteUserEntries : Nat := 256

/-- The part of the configuration that the limiter reads. -/
structure ShareInviteConfig where
  shareInvitesPerSource : Nat
  shareInvitesPerUser : Nat
  shareInviteTargetsPerUser : Nat
  shareInvitesGlobal : Nat
deriving DecidableEq

/-- `δ` are the digests of targets. -/
structure ShareInviteAttempt (σ δ : Type*) where
  source : σ
  userId : Int
  targetDigest : δ
  at_ : Nat
deriving DecidableEq

structure ShareInviteLimits (σ δ : Type*) where
  attempts : List (ShareInviteAttempt σ δ)

/-- The arguments of a call of `admit`. -/
structure ShareInvite (σ : Type*) where
  source : σ
  userId : Int
  canonicalTarget : String
  config : ShareInviteConfig
  now : Nat
deriving DecidableEq

section

variable {σ δ : Type*} [DecidableEq σ] [DecidableEq δ] (digest : String → δ)

def ShareInvite.attempt (call : ShareInvite σ) : ShareInviteAttempt σ δ :=
  ⟨call.source, call.userId, digest call.canonicalTarget, call.now⟩

namespace ShareInviteLimits

def new : ShareInviteLimits σ δ := ⟨[]⟩

/-- `admit`: whether the call was admitted, and the queue after it. -/
def admitInvite (limits : ShareInviteLimits σ δ) (call : ShareInvite σ) :
    Bool × ShareInviteLimits σ δ :=
  let attempts := expire (·.at_) shareInviteWindow call.now limits.attempts
  let targetDigest := digest call.canonicalTarget
  let sourceAttempts := (attempts.filter fun attempt => attempt.source = call.source).length
  let userAttempts := (attempts.filter fun attempt => attempt.userId = call.userId).length
  let knownUser := 0 < userAttempts
  let userEntries := (attempts.map (·.userId)).dedup.length
  let distinctTargets :=
    ((attempts.filter fun attempt => attempt.userId = call.userId).map (·.targetDigest)).dedup
  let addsDistinctTarget := targetDigest ∉ distinctTargets
  if call.config.shareInvitesGlobal ≤ attempts.length ∨
      call.config.shareInvitesPerSource ≤ sourceAttempts ∨
      call.config.shareInvitesPerUser ≤ userAttempts ∨
      (addsDistinctTarget ∧ call.config.shareInviteTargetsPerUser ≤ distinctTargets.length) ∨
      (¬knownUser ∧ maxShareInviteUserEntries ≤ userEntries) then
    (false, ⟨attempts⟩)
  else (true, ⟨attempts ++ [call.attempt digest]⟩)

end ShareInviteLimits

/-! ## What the limiter is for -/

/-- The invitations of one user. -/
def ofUser (userId : Int) (calls : List (ShareInvite σ)) : List (ShareInvite σ) :=
  calls.filter fun c => c.userId = userId

/-- The five budgets of a call, counted over the invitations `admitted` so far. -/
structure Admissible (admitted : List (ShareInvite σ)) (call : ShareInvite σ) : Prop where
  all : (recent (·.now) shareInviteWindow call.now admitted).length <
    call.config.shareInvitesGlobal
  source : ((recent (·.now) shareInviteWindow call.now admitted).filter fun c =>
    c.source = call.source).length < call.config.shareInvitesPerSource
  user : (ofUser call.userId (recent (·.now) shareInviteWindow call.now admitted)).length <
    call.config.shareInvitesPerUser
  target :
    let targets := ((ofUser call.userId (recent (·.now) shareInviteWindow call.now admitted)).map
      (·.canonicalTarget)).toFinset
    call.canonicalTarget ∈ targets ∨ targets.card < call.config.shareInviteTargetsPerUser
  users :
    let users := ((recent (·.now) shareInviteWindow call.now admitted).map (·.userId)).toFinset
    call.userId ∈ users ∨ users.card < maxShareInviteUserEntries

/-- The limiter after a call, and the calls that it has admitted. -/
def serve (state : ShareInviteLimits σ δ × List (ShareInvite σ)) (call : ShareInvite σ) :
    ShareInviteLimits σ δ × List (ShareInvite σ) :=
  let (ok, limits) := state.1.admitInvite digest call
  (limits, if ok then state.2 ++ [call] else state.2)

/-- The limiter after some calls, and those that it has admitted. -/
def serveAll (calls : List (ShareInvite σ)) : ShareInviteLimits σ δ × List (ShareInvite σ) :=
  calls.foldl (serve digest) (.new, [])

/-! ## The queue -/

variable {digest} {limits : ShareInviteLimits σ δ} {admitted : List (ShareInvite σ)}
  {call : ShareInvite σ}

variable (digest) in
/-- The queue stands for what was admitted. -/
def Stands (now : Nat) (state : ShareInviteLimits σ δ × List (ShareInvite σ)) : Prop :=
  Tracks (·.at_) shareInviteWindow now state.1.attempts (state.2.map (·.attempt digest))

omit [DecidableEq σ] [DecidableEq δ] in
theorem recent_attempts (now : Nat) (calls : List (ShareInvite σ)) :
    recent (·.at_) shareInviteWindow now (calls.map (·.attempt digest)) =
      (recent (·.now) shareInviteWindow now calls).map (·.attempt digest) := by
  rw [recent, List.filter_map]
  rfl

/-- The digest tells targets apart, so that digests can be counted for them. -/
theorem card_map_digest (hdigest : Function.Injective digest) (targets : List String) :
    (targets.map digest).toFinset.card = targets.toFinset.card := by
  have himage : (targets.map digest).toFinset = targets.toFinset.image digest := by
    ext
    simp
  rw [himage, Finset.card_image_of_injective _ hdigest]

/-- The decision on a call, from a queue that stands for what was admitted. -/
theorem admitInvite_iff (hdigest : Function.Injective digest)
    (h : Stands digest call.now (limits, admitted)) :
    (limits.admitInvite digest call).1 = true ↔ Admissible admitted call := by
  have hperm := h.expire_perm
  rw [recent_attempts] at hperm
  simp only [ShareInviteLimits.admitInvite]
  generalize expire (·.at_) shareInviteWindow call.now limits.attempts = queue at hperm ⊢
  have hall := hperm.length_eq
  have hcount : ∀ p : ShareInviteAttempt σ δ → Bool, (queue.filter p).length =
      ((recent (·.now) shareInviteWindow call.now admitted).filter
        fun c => p (c.attempt digest)).length := by
    intro p
    rw [(hperm.filter p).length_eq, List.filter_map, List.length_map]
    rfl
  have huser := hcount fun attempt => attempt.userId = call.userId
  have husers : (queue.map (·.userId)).toFinset =
      ((recent (·.now) shareInviteWindow call.now admitted).map (·.userId)).toFinset := by
    rw [List.toFinset_eq_of_perm _ _ (hperm.map _), List.map_map]
    rfl
  have htargets : (queue.filter fun attempt => attempt.userId = call.userId).map (·.targetDigest)
      |>.Perm (((ofUser call.userId (recent (·.now) shareInviteWindow call.now admitted)).map
        (·.canonicalTarget)).map digest) := by
    refine ((hperm.filter _).map _).trans (.of_eq ?_)
    rw [List.filter_map, List.map_map, List.map_map]
    rfl
  have hmem : digest call.canonicalTarget ∈
      (queue.filter fun attempt => attempt.userId = call.userId).map (·.targetDigest) ↔
      call.canonicalTarget ∈ (ofUser call.userId
        (recent (·.now) shareInviteWindow call.now admitted)).map (·.canonicalTarget) := by
    rw [htargets.mem_iff, List.mem_map_of_injective hdigest]
  have hcard := congrArg Finset.card (List.toFinset_eq_of_perm _ _ htargets)
  rw [card_map_digest hdigest, List.card_toFinset] at hcard
  have hknown : 0 < (queue.filter fun attempt => attempt.userId = call.userId).length ↔
      call.userId ∈ ((recent (·.now) shareInviteWindow call.now admitted).map
        (·.userId)).toFinset := by
    rw [← husers]
    simp [List.length_pos_iff_exists_mem]
  rw [huser] at hknown
  have hentries := congrArg Finset.card husers
  rw [List.card_toFinset] at hentries
  have hsplit : ∀ (refused : Prop) [Decidable refused] (x y : ShareInviteLimits σ δ),
      (if refused then (false, x) else (true, y)).1 = true ↔ ¬refused := by
    intro refused _ x y
    split <;> simp_all
  rw [hsplit, hall, List.length_map, hcount, huser, hentries, hcard, hknown, List.mem_dedup, hmem]
  simp only [not_or, not_and, not_le]
  constructor
  · rintro ⟨hglobal, hsource, huser, htarget, hnew⟩
    exact ⟨hglobal, hsource, huser, or_iff_not_imp_left.mpr (by simpa using htarget),
      or_iff_not_imp_left.mpr hnew⟩
  · rintro ⟨hglobal, hsource, huser, htarget, hnew⟩
    exact ⟨hglobal, hsource, huser, by simpa using or_iff_not_imp_left.mp htarget,
      or_iff_not_imp_left.mp hnew⟩

/-- What was admitted is in the queue as long as it counts. -/
theorem Stands.serve {state : ShareInviteLimits σ δ × List (ShareInvite σ)}
    (h : Stands digest call.now state) : Stands digest call.now (serve digest state call) := by
  have hkept : Tracks (·.at_) shareInviteWindow call.now
      (expire (·.at_) shareInviteWindow call.now state.1.attempts)
      (state.2.map (·.attempt digest)) := Tracks.expire h
  unfold Blackglass.serve ShareInviteLimits.admitInvite Stands
  simp only
  split
  · exact hkept
  · simp only [if_true, List.map_append, List.map_singleton]
    exact hkept.push rfl

theorem stands_serveAll {calls : List (ShareInvite σ)}
    (htimes : calls.Pairwise fun a b => a.now ≤ b.now) {now : Nat}
    (hnow : ∀ c ∈ calls, c.now ≤ now) : Stands digest now (serveAll digest calls) := by
  induction calls using List.reverseRecOn generalizing now with
  | nil => exact Tracks.nil
  | append_singleton calls call ih =>
    obtain ⟨htimes, -, hle⟩ := List.pairwise_append.mp htimes
    have hbefore : Stands digest call.now (serveAll digest calls) :=
      ih htimes fun c hc => hle c hc call List.mem_cons_self
    rw [serveAll, List.foldl_append, List.foldl_cons, List.foldl_nil]
    exact Tracks.later hbefore.serve (hnow call (by simp))

/-- However many calls there have been, at times that do not go back, the next one is admitted
just if the five budgets allow it, counted over all calls admitted within the last hour. -/
theorem share_invites_in_window (hdigest : Function.Injective digest)
    {calls : List (ShareInvite σ)}
    (htimes : (calls ++ [call]).Pairwise fun a b => a.now ≤ b.now) :
    ((serveAll digest calls).1.admitInvite digest call).1 = true ↔
      Admissible (serveAll digest calls).2 call := by
  obtain ⟨htimes, -, hle⟩ := List.pairwise_append.mp htimes
  exact admitInvite_iff hdigest
    (stands_serveAll htimes fun c hc => hle c hc call List.mem_cons_self)

end

/-- The second target of a user who may have one is refused, and admitted an hour later. -/
theorem share_invites_in_window_of_second_target :
    let config : ShareInviteConfig := ⟨3, 3, 1, 3⟩
    let calls : List (ShareInvite Nat) := [⟨1, 1, "first@example.test", config, 0⟩]
    let call : ShareInvite Nat := ⟨1, 1, "second@example.test", config, 0⟩
    let later : ShareInvite Nat := { call with now := shareInviteWindow }
    ¬Admissible (serveAll id calls).2 call ∧ Admissible (serveAll id calls).2 later := by
  intro config calls call later
  exact ⟨fun h => absurd ((share_invites_in_window Function.injective_id (by decide)).mpr h)
      (by decide), (share_invites_in_window Function.injective_id (by decide)).mp (by decide)⟩

end Blackglass
