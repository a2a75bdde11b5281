import Blackglass.DataPlane.Connection

/-!
# Storage reservations

An upload reserves its size before its bytes arrive, against the limit of all stored bytes
and against the limit of the vault's owner.  The reservations are kept in memory, as two
sums; this is `StorageReservations` of `server.rs`, with the arithmetic of `i64`: a sum or a
difference that does not fit is an `Overflow`.

The answer to a `size` message tells a client how much more it could upload.  That is what a
reservation would be given (`tryReserve_iff_advertised`).
-/

namespace Blackglass

open Outcome

namespace Quota

/-- A plain `+` or `-` left the range of `i64`. -/
inductive Overflow where
  | overflow
deriving DecidableEq

def maxI64 : Int := 9223372036854775807

def IsI64 (x : Int) : Prop := -9223372036854775808 ≤ x ∧ x ≤ maxI64

def i64 (x : Int) : Except Overflow Int := within (-9223372036854775808) maxI64 .overflow x

/-- `StorageReservationState`. -/
structure StorageReservations where
  globalBytes : Int
  ownerBytes : Int → Option Int

/-- What an upload holds. -/
structure StorageReservation where
  ownerUserId : Int
  bytes : Int
deriving DecidableEq

/-- `committed > limit || reserved > limit - committed ||
additional > limit - committed - reserved`, one after the other. -/
def exceeds (committed reserved additional limit : Int) : Except Overflow Bool :=
  if limit < committed then return true
  else do
    let uncommitted ← i64 (limit - committed)
    if uncommitted < reserved then return true
    else
      let free ← i64 (uncommitted - reserved)
      return free < additional

namespace StorageReservations

/-- `StorageReservations::default()`. -/
def empty : StorageReservations := { globalBytes := 0, ownerBytes := fun _ => none }

def reserved (state : StorageReservations) : Int := state.globalBytes

def reservedForOwner (state : StorageReservations) (userId : Int) : Int :=
  (state.ownerBytes userId).getD 0

def tryReserve (state : StorageReservations) (committedGlobal committedOwner ownerUserId additional
    globalLimit ownerLimit : Int) :
    Except Overflow (Option (StorageReservation × StorageReservations)) :=
  if committedGlobal < 0 ∨ committedOwner < 0 ∨ additional ≤ 0 ∨ globalLimit ≤ 0 ∨
      ownerLimit ≤ 0 then
    return none
  else do
    let ownerReserved := state.reservedForOwner ownerUserId
    if ← exceeds committedGlobal state.globalBytes additional globalLimit then return none
    else if ← exceeds committedOwner ownerReserved additional ownerLimit then return none
    else
      let globalBytes ← i64 (state.globalBytes + additional)
      let ownerBytes ← i64 (ownerReserved + additional)
      return some ({ ownerUserId := ownerUserId, bytes := additional },
        { globalBytes := globalBytes,
          ownerBytes := Function.update state.ownerBytes ownerUserId (some ownerBytes) })

/-- `impl Drop for StorageReservation`. -/
def drop (state : StorageReservations) (r : StorageReservation) : StorageReservations where
  globalBytes := saturate (state.globalBytes - r.bytes)
  ownerBytes :=
    match state.ownerBytes r.ownerUserId with
    | none => state.ownerBytes
    | some ownerBytes =>
      let ownerBytes := saturate (ownerBytes - r.bytes)
      Function.update state.ownerBytes r.ownerUserId
        (if ownerBytes = 0 then none else some ownerBytes)

end StorageReservations

/-! ## When a reservation is made -/

theorem i64_of_mem {x : Int} (h : IsI64 x) : i64 x = .ok x := within_of_mem h.1 h.2

theorem saturate_of_mem {x : Int} (h : IsI64 x) : saturate x = x := by
  unfold IsI64 maxI64 at h
  unfold saturate
  omega

/-- The three comparisons are one, and none of their differences overflows. -/
theorem exceeds_eq {committed reserved additional limit : Int} (hcommitted : 0 ≤ committed)
    (hreserved : 0 ≤ reserved) (hadditional : 0 < additional) (hmax : limit ≤ maxI64) :
    exceeds committed reserved additional limit =
      .ok (decide (limit < committed + reserved + additional)) := by
  have hrange : ∀ x : Int, 0 ≤ x → x ≤ limit → IsI64 x := fun x h₀ h₁ => ⟨by omega, by omega⟩
  unfold exceeds
  split
  · rename_i hover
    rw [decide_eq_true (by omega)]
    rfl
  · rename_i hfits
    rw [i64_of_mem (hrange (limit - committed) (by omega) (by omega))]
    show (if _ then _ else _) = _
    split
    · rename_i hover
      rw [decide_eq_true (by omega)]
      rfl
    · rename_i hfits'
      rw [i64_of_mem (hrange (limit - committed - reserved) (by omega) (by omega))]
      show Except.ok (decide _) = _
      congr 2
      rw [eq_iff_iff]
      omega

namespace StorageReservations

variable {state : StorageReservations} {committedGlobal committedOwner ownerUserId additional
  globalLimit ownerLimit : Int}

/-- The sums after a reservation. -/
def withReservation (state : StorageReservations) (r : StorageReservation) :
    StorageReservations where
  globalBytes := state.globalBytes + r.bytes
  ownerBytes := Function.update state.ownerBytes r.ownerUserId
    (some (state.reservedForOwner r.ownerUserId + r.bytes))

/-- A reservation is made when it fits beside what is stored and reserved, for both limits.
Stored bytes may be more than any `i64`: they are then over the limit. -/
theorem tryReserve_eq (hglobal : 0 ≤ committedGlobal) (howner : 0 ≤ committedOwner)
    (hreserved : 0 ≤ state.reserved) (hreservedOwner : 0 ≤ state.reservedForOwner ownerUserId)
    (hadditional : 0 < additional) (hglobalLimit : 0 < globalLimit ∧ globalLimit ≤ maxI64)
    (hownerLimit : 0 < ownerLimit ∧ ownerLimit ≤ maxI64) :
    state.tryReserve committedGlobal committedOwner ownerUserId additional globalLimit ownerLimit =
      .ok (if committedGlobal + state.reserved + additional ≤ globalLimit ∧
          committedOwner + state.reservedForOwner ownerUserId + additional ≤ ownerLimit then
        some (⟨ownerUserId, additional⟩, state.withReservation ⟨ownerUserId, additional⟩)
      else none) := by
  unfold tryReserve
  rw [if_neg (by omega)]
  have hfirst : exceeds committedGlobal state.globalBytes additional globalLimit =
      .ok (decide (globalLimit < committedGlobal + state.reserved + additional)) :=
    exceeds_eq hglobal hreserved hadditional hglobalLimit.2
  have hsecond := exceeds_eq howner hreservedOwner hadditional hownerLimit.2
  simp only [hfirst, hsecond]
  by_cases hg : committedGlobal + state.reserved + additional ≤ globalLimit
  · by_cases ho : committedOwner + state.reservedForOwner ownerUserId + additional ≤ ownerLimit
    · have hbytes : IsI64 (state.globalBytes + additional) := by
        have hsum : IsI64 (state.reserved + additional) := ⟨by omega, by omega⟩
        exact hsum
      have hownerBytes : IsI64 (state.reservedForOwner ownerUserId + additional) :=
        ⟨by omega, by omega⟩
      rw [if_pos (And.intro hg ho), i64_of_mem hbytes, i64_of_mem hownerBytes,
        decide_eq_false (by omega), decide_eq_false (by omega)]
      rfl
    · rw [if_neg fun h => ho h.2, decide_eq_false (by omega), decide_eq_true (by omega)]
      rfl
  · rw [if_neg fun h => hg h.1, decide_eq_true (by omega)]
    rfl

end StorageReservations

/-! ## What is advertised -/

open DataPlane

/-- For every count of stored and reserved bytes, what `size` advertises beyond the owner's own
bytes is what a reservation would be given, and nothing overflows on the way. -/
theorem tryReserve_iff_advertised {state : StorageReservations}
    {ownerUserId ownerUsed globalUsed ownerLimit globalLimit n : Int}
    (hownerUsed : 0 ≤ ownerUsed ∧ ownerUsed ≤ maxI64)
    (hglobalUsed : 0 ≤ globalUsed ∧ globalUsed ≤ maxI64)
    (hownerReserved : 0 ≤ state.reservedForOwner ownerUserId ∧
      state.reservedForOwner ownerUserId ≤ maxI64)
    (hglobalReserved : 0 ≤ state.reserved ∧ state.reserved ≤ maxI64)
    (hownerLimit : 0 < ownerLimit ∧ ownerLimit ≤ maxI64)
    (hglobalLimit : 0 < globalLimit ∧ globalLimit ≤ maxI64) (hn : 0 < n ∧ n ≤ maxI64) :
    let limit := effectiveStorageLimit ownerUsed globalUsed (state.reservedForOwner ownerUserId)
      state.reserved ownerLimit globalLimit
    IsI64 limit ∧ IsI64 (limit - ownerUsed) ∧
      ∃ reservation, state.tryReserve globalUsed ownerUsed ownerUserId n globalLimit ownerLimit =
        .ok reservation ∧ (reservation.isSome = true ↔ n ≤ limit - ownerUsed) := by
  intro limit
  have hmin : (-9223372036854775808 : Int) ≤ -maxI64 := by decide
  -- of the saturating steps only the last two can stop at an end of the range
  have hglobalFree : max (saturate (saturate (globalLimit - globalUsed) - state.reserved)) 0 =
      max (globalLimit - globalUsed - state.reserved) 0 := by
    rw [saturate_of_mem (show IsI64 (globalLimit - globalUsed) from ⟨by omega, by omega⟩)]
    unfold saturate
    unfold maxI64 at hglobalLimit
    omega
  have hownerFree : saturate (ownerLimit - state.reservedForOwner ownerUserId) =
      ownerLimit - state.reservedForOwner ownerUserId :=
    saturate_of_mem ⟨by omega, by omega⟩
  have hlimit : limit = min (max (ownerLimit - state.reservedForOwner ownerUserId) 0)
      (min maxI64 (ownerUsed + max (globalLimit - globalUsed - state.reserved) 0)) := by
    show min (max (saturate _) 0) (saturate (ownerUsed + max (saturate (saturate _ - _)) 0)) = _
    rw [hglobalFree, hownerFree]
    unfold saturate maxI64
    omega
  have hmax : 0 ≤ limit ∧ limit ≤ maxI64 := by omega
  refine ⟨⟨by omega, hmax.2⟩, ⟨by omega, by omega⟩, _,
    StorageReservations.tryReserve_eq hglobalUsed.1 hownerUsed.1 hglobalReserved.1
      hownerReserved.1 hn.1 hglobalLimit hownerLimit, ?_⟩
  have hfits : (globalUsed + state.reserved + n ≤ globalLimit ∧
      ownerUsed + state.reservedForOwner ownerUserId + n ≤ ownerLimit) ↔ n ≤ limit - ownerUsed := by
    omega
  rw [← hfits]
  split
  · rename_i hboth
    exact iff_of_true rfl hboth
  · rename_i hover
    exact iff_of_false Bool.false_ne_true hover

/-- An owner with 20 of 100 bytes stored and 5 reserved, of 80 and 15 in all: 5 more fit. -/
theorem tryReserve_of_advertised :
    let state : StorageReservations := ⟨15, fun o => if o = 1 then some 5 else .none⟩
    effectiveStorageLimit 20 80 (state.reservedForOwner 1) state.reserved 100 100 = 25 ∧
      ∃ reservation, state.tryReserve 80 20 1 5 100 100 = .ok reservation ∧
        reservation.isSome = true := by
  intro state
  have hlimit : effectiveStorageLimit 20 80 (state.reservedForOwner 1) state.reserved 100 100 =
      25 := by decide
  obtain ⟨-, -, reservation, hok, hiff⟩ := @tryReserve_iff_advertised state 1 20 80 100 100 5
    (by decide) (by decide) (by decide) (by decide) (by decide) (by decide) (by decide)
  refine ⟨hlimit, reservation, hok, hiff.mpr ?_⟩
  rw [hlimit]
  decide

end Quota

end Blackglass
