import Blackglass.Lib.Delimited
import Mathlib.Tactic.Common

/-!
# Numerals

Two readers of unsigned numbers that the standard library of the program's language has: `parse`
of a whole text with checked arithmetic, and the number at the front of a text, with a bound on
its digits.  A number written without leading zeroes is read back as itself by both.
-/

namespace Numeral

/-! ## The readers -/

/-- The value of a character as a digit of some radix. -/
def digitValue (c : Char) : Option Nat :=
  if '0' ≤ c && c ≤ '9' then some (c.toNat - 48)
  else if 'a' ≤ c && c ≤ 'z' then some (c.toNat - 87)
  else if 'A' ≤ c && c ≤ 'Z' then some (c.toNat - 55)
  else none

/-- `char::to_digit`. -/
def toDigit (radix : Nat) (c : Char) : Option Nat := (digitValue c).filter fun d => d < radix

/-- The loop of `from_str_radix`, with its checked arithmetic. -/
def checkedDigits (radix bound : Nat) : Nat → List Char → Option Nat
  | acc, [] => some acc
  | acc, c :: rest =>
    match toDigit radix c with
    | none => none
    | some d =>
      if acc * radix + d < bound then checkedDigits radix bound (acc * radix + d) rest
      else none

/-- The digits of a number that may have a plus sign in front. -/
def afterPlus : List Char → List Char
  | '+' :: digits => digits
  | digits => digits

/-- `parse` of an unsigned number below `bound`. -/
def parseUnsigned (bound : Nat) (text : List Char) : Option Nat :=
  if (afterPlus text).isEmpty then none else checkedDigits 10 bound 0 (afterPlus text)

/-- The loop of `read_number`: the value and the number of the digits in front, and the rest. -/
def readDigits (radix maxDigits : Nat) :
    Nat → Nat → List Char → Option (Nat × Nat × List Char)
  | result, count, [] => some (result, count, [])
  | result, count, c :: rest =>
    match toDigit radix c with
    | none => some (result, count, c :: rest)
    | some d =>
      if maxDigits < count + 1 then none
      else readDigits radix maxDigits (result * radix + d) (count + 1) rest

/-- `read_number`, for numbers below `bound`. -/
def readNumber (radix maxDigits bound : Nat) (allowZeroPrefix : Bool) (p : List Char) :
    Option (Nat × List Char) :=
  match readDigits radix maxDigits 0 0 p with
  | none => none
  | some (result, count, rest) =>
    if count = 0 then none
    else if !allowZeroPrefix && p.head? = some '0' && 1 < count then none
    else if result < bound then some (result, rest) else none

/-! ## Reading a number back -/

section Numbers

variable {radix bound maxDigits : Nat}

theorem digitValue_digitChar : ∀ d < 16, digitValue d.digitChar = some d := by
  decide

theorem toDigit_digitChar {d : Nat} (hradix : radix ≤ 16) (hd : d < radix) :
    toDigit radix d.digitChar = some d := by
  rw [toDigit, digitValue_digitChar d (by omega)]
  simp [hd]

/-- Induction over the digits of a number, the last one first. -/
theorem toDigits_induction {P : Nat → List Char → Prop} (hradix : 1 < radix)
    (digit : ∀ d < radix, P d [d.digitChar])
    (further : ∀ n cs, 0 < n → P n cs → ∀ d < radix, P (n * radix + d) (cs ++ [d.digitChar]))
    (n : Nat) : P n (Nat.toDigits radix n) := by
  induction n using Nat.strongRecOn with
  | ind n ih =>
    rw [Nat.toDigits_eq_if hradix]
    split
    case isTrue h => exact digit n h
    case isFalse h =>
      have hpos : 0 < n / radix := Nat.div_pos (Nat.not_lt.mp h) (by omega)
      have hquot := further _ _ hpos (ih (n / radix) (Nat.div_lt_self (by omega) hradix))
        (n % radix) (Nat.mod_lt n (by omega))
      rwa [Nat.div_add_mod'] at hquot

theorem checkedDigits_append (acc : Nat) (xs ys : List Char) :
    checkedDigits radix bound acc (xs ++ ys) =
      (checkedDigits radix bound acc xs).bind fun acc => checkedDigits radix bound acc ys := by
  induction xs generalizing acc with
  | nil => rfl
  | cons c xs ih =>
    rw [List.cons_append, checkedDigits, checkedDigits]
    cases toDigit radix c with
    | none => rfl
    | some d =>
      dsimp only
      split
      · exact ih _
      · rfl

theorem checkedDigits_toDigits {n : Nat} (hradix : 1 < radix) (hradix' : radix ≤ 16)
    (hn : n < bound) : checkedDigits radix bound 0 (Nat.toDigits radix n) = some n := by
  revert hn
  refine toDigits_induction (P := fun n cs => n < bound →
    checkedDigits radix bound 0 cs = some n) hradix ?_ ?_ n
  · intro d hd hbound
    simp [checkedDigits, toDigit_digitChar hradix' hd, hbound]
  · intro n cs _ ih d hd hbound
    have hmul : n ≤ n * radix := Nat.le_mul_of_pos_right n (by omega)
    rw [checkedDigits_append, ih (by omega)]
    simp [checkedDigits, toDigit_digitChar hradix' hd, hbound]

theorem checkedDigits_lt {acc n : Nat} {cs : List Char} (hacc : acc < bound)
    (h : checkedDigits radix bound acc cs = some n) : n < bound := by
  induction cs generalizing acc with
  | nil =>
    obtain rfl : acc = n := Option.some.inj h
    exact hacc
  | cons c cs ih =>
    rw [checkedDigits] at h
    split at h
    case h_1 => cases h
    case h_2 =>
      split at h
      case isTrue hlt => exact ih hlt h
      case isFalse => cases h

theorem parseUnsigned_lt {n : Nat} {text : List Char} (hbound : 0 < bound)
    (h : parseUnsigned bound text = some n) : n < bound := by
  rw [parseUnsigned] at h
  split at h
  · cases h
  · exact checkedDigits_lt hbound h

theorem exists_of_mem_toDigits {n : Nat} {c : Char} (hradix : 1 < radix)
    (hc : c ∈ Nat.toDigits radix n) : ∃ d < radix, c = d.digitChar := by
  revert hc
  refine toDigits_induction (P := fun _ cs => c ∈ cs → ∃ d < radix, c = d.digitChar) hradix ?_ ?_ n
  · intro d hd hc
    exact ⟨d, hd, List.mem_singleton.mp hc⟩
  · intro n cs _ ih d hd hc
    rcases List.mem_append.mp hc with hc | hc
    · exact ih hc
    · exact ⟨d, hd, List.mem_singleton.mp hc⟩

theorem afterPlus_toDigits (n : Nat) : afterPlus (Nat.toDigits 10 n) = Nat.toDigits 10 n := by
  rw [afterPlus.eq_def]
  split
  case h_1 digits h =>
    have hdigit : ('+' : Char).isDigit = true :=
      Nat.isDigit_of_mem_toDigits (b := 10) (n := n) (by decide) (by decide)
        (h ▸ List.mem_cons_self)
    exact absurd hdigit (by decide)
  case h_2 => rfl

theorem parseUnsigned_toDigits {n : Nat} (hn : n < bound) :
    parseUnsigned bound (Nat.toDigits 10 n) = some n := by
  rw [parseUnsigned, afterPlus_toDigits, if_neg (by simp [Nat.toDigits_ne_nil]),
    checkedDigits_toDigits (by decide) (by decide) hn]

/-- No number goes on with the rest. -/
abbrev Ends (radix : Nat) (rest : List Char) : Prop :=
  Delimited.Stops (fun c => toDigit radix c = none) rest

theorem readDigits_of_ends {result count : Nat} {rest : List Char} (h : Ends radix rest) :
    readDigits radix maxDigits result count rest = some (result, count, rest) := by
  cases rest with
  | nil => rfl
  | cons c rest =>
    have hc : toDigit radix c = none := h
    rw [readDigits, hc]

theorem readDigits_append {result count result' count' : Nat} {xs : List Char} (ys : List Char)
    (h : readDigits radix maxDigits result count xs = some (result', count', [])) :
    readDigits radix maxDigits result count (xs ++ ys) =
      readDigits radix maxDigits result' count' ys := by
  induction xs generalizing result count with
  | nil =>
    simp only [readDigits, Option.some.injEq, Prod.mk.injEq, and_true] at h
    rw [List.nil_append, h.1, h.2]
  | cons c xs ih =>
    rw [readDigits] at h
    rw [List.cons_append, readDigits]
    cases hd : toDigit radix c with
    | none => simp [hd] at h
    | some d =>
      simp only [hd] at h ⊢
      split at h
      case isTrue => cases h
      case isFalse hcount => rw [if_neg hcount, ih h]

theorem readDigits_toDigits {n : Nat} (hradix : 1 < radix) (hradix' : radix ≤ 16)
    (hlen : (Nat.toDigits radix n).length ≤ maxDigits) :
    readDigits radix maxDigits 0 0 (Nat.toDigits radix n) =
      some (n, (Nat.toDigits radix n).length, []) := by
  revert hlen
  refine toDigits_induction (P := fun n cs => cs.length ≤ maxDigits →
    readDigits radix maxDigits 0 0 cs = some (n, cs.length, [])) hradix ?_ ?_ n
  · intro d hd hlen
    have hcount : ¬maxDigits < 0 + 1 := Nat.not_lt.mpr hlen
    simp [readDigits, toDigit_digitChar hradix' hd, hcount]
  · intro n cs _ ih d hd hlen
    rw [List.length_append, List.length_singleton] at hlen
    have hcount : ¬maxDigits < cs.length + 1 := by omega
    rw [readDigits_append _ (ih (by omega))]
    simp [readDigits, toDigit_digitChar hradix' hd, hcount]

/-- Only the number zero is written with a leading zero. -/
theorem eq_zero_of_head?_toDigits {n : Nat} (hradix : 1 < radix)
    (h : (Nat.toDigits radix n).head? = some '0') : n = 0 := by
  refine (toDigits_induction (P := fun n cs => cs ≠ [] ∧ (cs.head? = some '0' → n = 0)) hradix
    ?_ ?_ n).2 h
  · intro d hd
    exact ⟨List.cons_ne_nil _ _, fun h => Nat.digitChar_eq_zero.mp (Option.some.inj h)⟩
  · rintro n cs hn ⟨hne, ih⟩ d -
    refine ⟨List.append_ne_nil_of_left_ne_nil hne _, fun h => ?_⟩
    rw [List.head?_append_of_ne_nil _ hne] at h
    exact absurd (ih h) (Nat.ne_of_gt hn)

theorem readNumber_toDigits {n : Nat} {allowZeroPrefix : Bool} {rest : List Char}
    (hradix : 1 < radix) (hradix' : radix ≤ 16) (hn : n < bound)
    (hlen : (Nat.toDigits radix n).length ≤ maxDigits) (hrest : Ends radix rest) :
    readNumber radix maxDigits bound allowZeroPrefix (Nat.toDigits radix n ++ rest) =
      some (n, rest) := by
  have hread : readDigits radix maxDigits 0 0 (Nat.toDigits radix n ++ rest) =
      some (n, (Nat.toDigits radix n).length, rest) := by
    rw [readDigits_append rest (readDigits_toDigits hradix hradix' hlen), readDigits_of_ends hrest]
  have hcount : (Nat.toDigits radix n).length ≠ 0 := Nat.ne_of_gt Nat.length_toDigits_pos
  have hzero : (Nat.toDigits radix n ++ rest).head? = some '0' →
      ¬1 < (Nat.toDigits radix n).length := by
    intro h
    rw [List.head?_append_of_ne_nil _ Nat.toDigits_ne_nil] at h
    rw [eq_zero_of_head?_toDigits hradix h, Nat.toDigits_zero]
    exact Nat.lt_irrefl 1
  rw [readNumber, hread]
  dsimp only
  rw [if_neg hcount, if_neg (by simp only [Bool.and_eq_true, decide_eq_true_eq]; tauto), if_pos hn]

/-- The digits of decimal numbers. -/
theorem le_of_toDigit_ten {c : Char} (h : (toDigit 10 c).isSome = true) : '0' ≤ c ∧ c ≤ '9' := by
  have hnat : ∀ first : Char, first ≤ c → first.toNat ≤ c.toNat :=
    fun first hle => UInt32.le_iff_toNat_le.mp hle
  obtain ⟨d, hd⟩ := Option.isSome_iff_exists.mp h
  obtain ⟨hvalue, hten⟩ := Option.filter_eq_some_iff.mp hd
  have hten : d < 10 := of_decide_eq_true hten
  unfold digitValue at hvalue
  split at hvalue
  case isTrue hdigit => simpa using hdigit
  case isFalse =>
    split at hvalue
    case isTrue hlower =>
      have hle : 97 ≤ c.toNat := hnat 'a' (by simp_all)
      have := Option.some.inj hvalue
      omega
    case isFalse =>
      split at hvalue
      case isTrue hupper =>
        have hle : 65 ≤ c.toNat := hnat 'A' (by simp_all)
        have := Option.some.inj hvalue
        omega
      case isFalse => cases hvalue

theorem rest_of_readDigits {result count n k : Nat} {p rest : List Char}
    (h : readDigits radix maxDigits result count p = some (n, k, rest)) :
    rest = p.dropWhile fun c => (toDigit radix c).isSome := by
  induction p generalizing result count with
  | nil =>
    obtain ⟨-, -, rfl⟩ : result = n ∧ count = k ∧ [] = rest := by simpa [readDigits] using h
    rfl
  | cons c p ih =>
    rw [readDigits] at h
    cases hd : toDigit radix c with
    | none =>
      obtain ⟨-, -, rfl⟩ : result = n ∧ count = k ∧ c :: p = rest := by simpa [hd] using h
      simp [hd]
    | some d =>
      simp only [hd] at h
      split at h
      · cases h
      · rw [ih h]
        simp [hd]

theorem rest_of_readNumber {n : Nat} {allowZeroPrefix : Bool}
    {p rest : List Char} (h : readNumber radix maxDigits bound allowZeroPrefix p = some (n, rest)) :
    rest = p.dropWhile fun c => (toDigit radix c).isSome := by
  rw [readNumber] at h
  split at h
  · cases h
  case h_2 result count rest' hread =>
    split at h
    · cases h
    split at h
    · cases h
    split at h
    · obtain ⟨-, rfl⟩ : result = n ∧ rest' = rest := by simpa using h
      exact rest_of_readDigits hread
    · cases h

end Numbers

end Numeral
