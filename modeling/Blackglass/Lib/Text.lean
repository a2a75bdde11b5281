import Mathlib.Data.String.Basic
import Mathlib.Data.List.TakeWhile
import Mathlib.Tactic.Common

/-!
# Text, as two languages measure it

A string of Unicode characters has two lengths in a program that keeps its text in
SQLite: the number of its UTF-8 bytes, which is what `len` of the program counts, and
`length(X)` of a `TEXT` value, which counts the characters before the first NUL.  The
text functions of both sides that a validator is built from are here, together with
the comparison of the two lengths that agreement of two validators rests on.
-/

namespace Text

/-! ## Characters -/

def nul : Char := Char.ofNat 0

/-- The Unicode property `White_Space`. -/
def isWhiteSpace (c : Char) : Bool :=
  let n := c.toNat
  (9 ≤ n && n ≤ 13) || n = 0x20 || n = 0x85 || n = 0xA0 || n = 0x1680 ||
    (0x2000 ≤ n && n ≤ 0x200A) || n = 0x2028 || n = 0x2029 || n = 0x202F || n = 0x205F ||
    n = 0x3000

/-- Space, tab, line feed, form feed and carriage return. -/
def isAsciiWhiteSpace (c : Char) : Bool :=
  let n := c.toNat
  n = 0x20 || n = 9 || n = 10 || n = 12 || n = 13

/-- The Unicode category `Cc`. -/
def isControl (c : Char) : Bool :=
  let n := c.toNat
  n < 0x20 || (0x7F ≤ n && n < 0xA0)

/-- The characters from `!` to `~`. -/
def isAsciiGraphic (c : Char) : Bool := '!' ≤ c && c ≤ '~'

def isLowerHexDigit (c : Char) : Bool := ('0' ≤ c && c ≤ '9') || ('a' ≤ c && c ≤ 'f')

/-- `is_ascii_hexdigit`. -/
def isAsciiHexDigit (c : Char) : Bool := isLowerHexDigit c || ('A' ≤ c && c ≤ 'F')

def hexDigit (n : Nat) : Char := if n < 10 then Char.ofNat (48 + n) else Char.ofNat (87 + n)

/-! ## Strings of the program -/

/-- A string without the characters of `p` at its two ends. -/
def trimMatches (p : Char → Bool) (s : String) : String :=
  String.ofList ((s.toList.dropWhile p).reverse.dropWhile p).reverse

/-- `str::trim`. -/
def trim (s : String) : String := trimMatches isWhiteSpace s

def toAsciiLowercase (s : String) : String := String.ofList (s.toList.map Char.toLower)

/-- `hex::encode`. -/
def hexEncode (bytes : List UInt8) : String :=
  String.ofList (bytes.flatMap fun b => [hexDigit (b.toNat / 16), hexDigit (b.toNat % 16)])

/-- Not empty and at most `max` bytes. -/
def Bounded (max : Nat) (s : String) : Prop := s.utf8ByteSize ≠ 0 ∧ s.utf8ByteSize ≤ max

instance (max : Nat) (s : String) : Decidable (Bounded max s) := by
  unfold Bounded
  infer_instance

/-! ## `TEXT` values of SQLite -/

/-- The characters of a `TEXT` value that C string functions see. -/
def sqlChars (s : String) : List Char := s.toList.takeWhile fun c => c ≠ nul

/-- `length(X)`. -/
def sqlLength (s : String) : Int := (sqlChars s).length

/-- `X GLOB '*[^..]*'`, for the class of characters that `p` holds of. -/
def globOutside (p : Char → Bool) (s : String) : Bool := (sqlChars s).any fun c => !p c

/-- `replace(X,c,'')`. -/
def sqlWithout (c : Char) (s : String) : String := String.ofList (s.toList.filter fun d => d ≠ c)

/-- `instr(X,c)`: the position of the first `c`, counted from one, or zero. -/
def sqlInstr (c : Char) (s : String) : Int :=
  if c ∈ s.toList then (s.toList.idxOf c : Int) + 1 else 0

/-- `length(CAST(X AS BLOB))`. -/
def sqlByteLength (s : String) : Int := s.utf8ByteSize

/-- Whether the first character of a string is NUL. -/
def startsWithNul (s : String) : Bool := s.toList.head? = some nul

/-! ## The two lengths -/

theorem length_le_utf8Len (cs : List Char) : cs.length ≤ String.utf8Len cs := by
  induction cs with
  | nil => simp
  | cons c cs ih =>
    have hc := Char.utf8Size_pos c
    simp only [List.length_cons, String.utf8Len_cons]
    omega

theorem utf8ByteSize_eq_utf8Len (s : String) : s.utf8ByteSize = String.utf8Len s.toList := by
  rw [← String.utf8ByteSize_ofList, String.ofList_toList]

/-- SQLite never counts more characters than the program counts bytes. -/
theorem sqlLength_le_utf8ByteSize (s : String) : sqlLength s ≤ s.utf8ByteSize := by
  have h₁ := (List.takeWhile_prefix (fun c => decide (c ≠ nul)) : _ <+: s.toList).length_le
  have h₂ := length_le_utf8Len s.toList
  rw [← utf8ByteSize_eq_utf8Len] at h₂
  unfold sqlLength sqlChars
  omega

/-- SQLite counts no character at all exactly on the strings that are empty or begin
with NUL. -/
theorem sqlLength_pos_iff {s : String} :
    1 ≤ sqlLength s ↔ s.utf8ByteSize ≠ 0 ∧ startsWithNul s = false := by
  rw [utf8ByteSize_eq_utf8Len, Ne, String.utf8Len_eq_zero]
  unfold sqlLength sqlChars startsWithNul
  cases s.toList with
  | nil => simp
  | cons c cs =>
    by_cases hc : c = nul
    · simp [hc]
    · refine iff_of_true ?_ (by simp [hc])
      rw [List.takeWhile_cons_of_pos (by simpa using hc), List.length_cons]
      omega

/-- A bounded string is one SQLite counts as bounded, unless it begins with NUL. -/
theorem Bounded.sqlLength_iff {max : Nat} {s : String} (h : Bounded max s) :
    (1 ≤ sqlLength s ∧ sqlLength s ≤ max) ↔ startsWithNul s = false := by
  have hle := sqlLength_le_utf8ByteSize s
  have hmax := h.2
  rw [sqlLength_pos_iff]
  constructor
  · exact fun hs => hs.1.2
  · exact fun hs => ⟨⟨h.1, hs⟩, by omega⟩

/-! ## Hexadecimal text -/

theorem isLowerHexDigit_hexDigit : ∀ n < 16, isLowerHexDigit (hexDigit n) = true := by
  decide

theorem isLowerHexDigit_of_mem_hexEncode {bytes : List UInt8} {c : Char}
    (h : c ∈ (hexEncode bytes).toList) : isLowerHexDigit c = true := by
  rw [hexEncode, String.toList_ofList, List.mem_flatMap] at h
  obtain ⟨b, -, hc⟩ := h
  have hb := b.toNat_lt
  simp only [List.mem_cons, List.not_mem_nil, or_false] at hc
  rcases hc with rfl | rfl
  · exact isLowerHexDigit_hexDigit _ (by omega)
  · exact isLowerHexDigit_hexDigit _ (by omega)

/-- No hexadecimal digit is NUL, so SQLite sees all of them. -/
theorem sqlChars_hexEncode (bytes : List UInt8) :
    sqlChars (hexEncode bytes) = (hexEncode bytes).toList := by
  refine List.takeWhile_eq_self_iff.mpr fun c hc => ?_
  have hhex := isLowerHexDigit_of_mem_hexEncode hc
  have hnul : isLowerHexDigit nul = false := by decide
  rw [decide_eq_true_eq]
  rintro rfl
  rw [hnul] at hhex
  exact Bool.noConfusion hhex

theorem sqlLength_hexEncode (bytes : List UInt8) :
    sqlLength (hexEncode bytes) = 2 * bytes.length := by
  rw [sqlLength, sqlChars_hexEncode, hexEncode, String.toList_ofList]
  induction bytes with
  | nil => rfl
  | cons b bytes ih =>
    rw [List.flatMap_cons, List.length_append, List.length_cons]
    simp only [List.length_cons, List.length_nil]
    omega

theorem globOutside_hexEncode (bytes : List UInt8) :
    globOutside isLowerHexDigit (hexEncode bytes) = false := by
  rw [globOutside, sqlChars_hexEncode, List.any_eq_false]
  intro c hc
  rw [isLowerHexDigit_of_mem_hexEncode hc]
  decide

/-- A text of one-byte characters has as many bytes as characters. -/
theorem utf8Len_of_ascii {cs : List Char} (h : ∀ c ∈ cs, c.toNat ≤ 127) :
    String.utf8Len cs = cs.length := by
  induction cs with
  | nil => simp
  | cons c cs ih =>
    have hc : c.utf8Size = 1 := Char.utf8Size_eq_one_iff.mpr (h c List.mem_cons_self)
    rw [String.utf8Len_cons, ih fun d hd => h d (List.mem_cons_of_mem _ hd), hc, List.length_cons]

theorem toNat_of_isLowerHexDigit {c : Char} (h : isLowerHexDigit c = true) : c.toNat ≤ 127 := by
  simp only [isLowerHexDigit, Bool.or_eq_true, Bool.and_eq_true, decide_eq_true_eq] at h
  rcases h with ⟨-, hle⟩ | ⟨-, hle⟩
  · have hle' : c.toNat ≤ '9'.toNat := hle
    exact hle'.trans (by decide)
  · have hle' : c.toNat ≤ 'f'.toNat := hle
    exact hle'.trans (by decide)

/-! ## Printable text -/

/-- What lowercasing does to a printable character, by inspection of all of them. -/
theorem toLower_ofNat : ∀ n < 128, isAsciiGraphic (Char.ofNat n) = true →
    isAsciiGraphic (Char.ofNat n).toLower = true ∧
      ((Char.ofNat n).toLower = '@' ↔ Char.ofNat n = '@') ∧
      (Char.ofNat n).toLower.toLower = (Char.ofNat n).toLower := by
  decide +kernel

theorem toNat_of_isAsciiGraphic {c : Char} (h : isAsciiGraphic c = true) :
    33 ≤ c.toNat ∧ c.toNat ≤ 126 := by
  simp only [isAsciiGraphic, Bool.and_eq_true, decide_eq_true_eq] at h
  exact ⟨h.1, h.2⟩

theorem isAsciiGraphic_of_isLowerHexDigit {c : Char} (h : isLowerHexDigit c = true) :
    isAsciiGraphic c = true := by
  simp only [isLowerHexDigit, isAsciiGraphic, Bool.or_eq_true, Bool.and_eq_true,
    decide_eq_true_eq] at h ⊢
  rcases h with ⟨hlow, hhigh⟩ | ⟨hlow, hhigh⟩
  · exact ⟨le_trans (by decide) hlow, le_trans hhigh (by decide)⟩
  · exact ⟨le_trans (by decide) hlow, le_trans hhigh (by decide)⟩

theorem ne_nul_of_isAsciiGraphic {c : Char} (h : isAsciiGraphic c = true) : c ≠ nul := by
  rintro rfl
  have hnul : nul.toNat = 0 := rfl
  have := toNat_of_isAsciiGraphic h
  omega

theorem toLower_of_isAsciiGraphic {c : Char} (h : isAsciiGraphic c = true) :
    isAsciiGraphic c.toLower = true ∧ (c.toLower = '@' ↔ c = '@') ∧
      c.toLower.toLower = c.toLower := by
  have hbound := toNat_of_isAsciiGraphic h
  have hall := toLower_ofNat c.toNat (by omega)
  rw [Char.ofNat_toNat] at hall
  exact hall h

/-- SQLite sees all of a printable string. -/
theorem sqlChars_of_graphic {s : String} (h : ∀ c ∈ s.toList, isAsciiGraphic c = true) :
    sqlChars s = s.toList := by
  refine List.takeWhile_eq_self_iff.mpr fun c hc => ?_
  simpa using ne_nul_of_isAsciiGraphic (h c hc)

end Text
