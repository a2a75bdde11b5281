import Blackglass.Lib.Numeral
import Mathlib.Data.List.Basic

/-!
# Addresses of the Internet Protocol and their texts

IPv4 and IPv6 addresses as the standard library of the program's language has them: the classes
an address can belong to, the text an address is written as, and the reader of such texts.  The
reader works on the rest of a text: it returns what it has read together with what it has not
looked at, and on failure the caller still has the text as it was.  The text of every address is
read back as that address (`Ipv4Addr.parse_text`, `Ipv6Addr.parse_text`).
-/

namespace Net

open Numeral

/-- `read_separator`: before every item but the first there is a separator. -/
def readSeparator {α : Type*} (sep : Char) (index : Nat)
    (inner : List Char → Option (α × List Char)) (p : List Char) : Option (α × List Char) :=
  if index = 0 then inner p
  else match p with
    | [] => none
    | c :: rest => if c = sep then inner rest else none

/-! ## IPv4 -/

structure Ipv4Addr where
  (a b c d : UInt8)
deriving DecidableEq, Repr

namespace Ipv4Addr

/-- `Ipv4Addr::LOCALHOST`. -/
def localhost : Ipv4Addr := ⟨127, 0, 0, 1⟩

def isUnspecified (x : Ipv4Addr) : Bool := x = ⟨0, 0, 0, 0⟩

def isLoopback (x : Ipv4Addr) : Bool := x.a = 127

def isMulticast (x : Ipv4Addr) : Bool := 224 ≤ x.a && x.a ≤ 239

def isBroadcast (x : Ipv4Addr) : Bool := x = ⟨255, 255, 255, 255⟩

/-- The text of `Display`. -/
def text (x : Ipv4Addr) : List Char :=
  Nat.toDigits 10 x.a.toNat ++ '.' :: (Nat.toDigits 10 x.b.toNat ++ '.' ::
    (Nat.toDigits 10 x.c.toNat ++ '.' :: Nat.toDigits 10 x.d.toNat))

/-- One number of an address; a zero before other digits could be read as octal. -/
def readOctet (index : Nat) (p : List Char) : Option (Nat × List Char) :=
  readSeparator '.' index (readNumber 10 3 256 false) p

/-- `read_ipv4_addr`. -/
def read (p : List Char) : Option (Ipv4Addr × List Char) := do
  let (a, p) ← readOctet 0 p
  let (b, p) ← readOctet 1 p
  let (c, p) ← readOctet 2 p
  let (d, p) ← readOctet 3 p
  return (⟨UInt8.ofNat a, UInt8.ofNat b, UInt8.ofNat c, UInt8.ofNat d⟩, p)

/-- `str::parse`. -/
def parse (text : List Char) : Option Ipv4Addr :=
  if 15 < text.length then none
  else match read text with
    | some (x, []) => some x
    | _ => none

/-- The two segments of an IPv6 address that hold this address. -/
def segments (x : Ipv4Addr) : List UInt16 :=
  [x.a.toUInt16 * 256 + x.b.toUInt16, x.c.toUInt16 * 256 + x.d.toUInt16]

end Ipv4Addr

/-! ## IPv6 -/

structure Ipv6Addr where
  segments : List UInt16
  length_segments : segments.length = 8
deriving DecidableEq, Repr

/-- What `read_groups` has read: its groups, whether the last two of them are an embedded IPv4
address, and the rest of the text. -/
structure Groups where
  groups : List UInt16
  ipv4 : Bool
  rest : List Char

/-- `read_groups`: at most `room` further groups, the next of which has the given index. -/
def readGroups : (room index : Nat) → List Char → Groups
  | 0, _, p => ⟨[], false, p⟩
  | room + 1, index, p =>
    -- an embedded address needs two groups
    match if 0 < room then readSeparator ':' index Ipv4Addr.read p else none with
    | some (x, rest) => ⟨x.segments, true, rest⟩
    | none =>
      match readSeparator ':' index (readNumber 16 4 65536 true) p with
      | some (g, rest) =>
        let further := readGroups room (index + 1) rest
        { further with groups := UInt16.ofNat g :: further.groups }
      | none => ⟨[], false, p⟩

theorem length_readGroups_le (room index : Nat) (p : List Char) :
    (readGroups room index p).groups.length ≤ room := by
  induction room generalizing index p with
  | zero => exact Nat.le_refl 0
  | succ room ih =>
    rw [readGroups]
    split
    case h_1 x rest hread =>
      have hroom : 0 < room := by
        by_contra h
        simp [h] at hread
      change 2 ≤ room + 1
      omega
    case h_2 =>
      split
      case h_1 g rest hread =>
        exact Nat.succ_le_succ (ih (index + 1) rest)
      case h_2 => exact Nat.zero_le _

/-- A stretch of the segments of an address. -/
structure Span where
  (start len : Nat)
deriving DecidableEq, Repr

namespace Ipv6Addr

def isUnspecified (x : Ipv6Addr) : Bool := x.segments = [0, 0, 0, 0, 0, 0, 0, 0]

def isLoopback (x : Ipv6Addr) : Bool := x.segments = [0, 0, 0, 0, 0, 0, 0, 1]

def isMulticast (x : Ipv6Addr) : Bool := x.segments.head?.any fun s => s &&& 0xff00 = 0xff00

/-- `to_ipv4_mapped`: the IPv4 address that an address of `::ffff:0:0/96` embeds. -/
def toIpv4Mapped (x : Ipv6Addr) : Option Ipv4Addr :=
  match x.segments with
  | [0, 0, 0, 0, 0, 0xffff, ab, cd] =>
    some ⟨(ab / 256).toUInt8, ab.toUInt8, (cd / 256).toUInt8, cd.toUInt8⟩
  | _ => none

/-- The loop of `Display` that looks for the longest stretch of zero segments. -/
def longestZeroes : (index : Nat) → (current longest : Span) → List UInt16 → Span
  | _, _, longest, [] => longest
  | index, current, longest, s :: rest =>
    if s = 0 then
      let current : Span :=
        ⟨if current.len = 0 then index else current.start, current.len + 1⟩
      longestZeroes (index + 1) current
        (if longest.len < current.len then current else longest) rest
    else longestZeroes (index + 1) ⟨0, 0⟩ longest rest

def zeroes (x : Ipv6Addr) : Span := longestZeroes 0 ⟨0, 0⟩ ⟨0, 0⟩ x.segments

/-- `fmt_subslice`. -/
def fmtSubslice (chunk : List UInt16) : List Char :=
  [':'].intercalate (chunk.map fun s => Nat.toDigits 16 s.toNat)

/-- The text of `Display`. -/
def text (x : Ipv6Addr) : List Char :=
  match x.toIpv4Mapped with
  | some embedded => "::ffff:".toList ++ embedded.text
  | none =>
    if 1 < x.zeroes.len then
      fmtSubslice (x.segments.take x.zeroes.start) ++ "::".toList ++
        fmtSubslice (x.segments.drop (x.zeroes.start + x.zeroes.len))
    else fmtSubslice x.segments

/-- The groups before and after the `::`, with zeroes in between. -/
def ofParts (head tail : List UInt16) (h : head.length + tail.length ≤ 8) : Ipv6Addr where
  segments := head ++ List.replicate (8 - head.length - tail.length) 0 ++ tail
  length_segments := by
    simp only [List.length_append, List.length_replicate]
    omega

/-- `read_ipv6_addr`. -/
def read (p : List Char) : Option (Ipv6Addr × List Char) :=
  let head := readGroups 8 0 p
  if h8 : head.groups.length = 8 then some (⟨head.groups, h8⟩, head.rest)
  else if head.ipv4 then none
  else match head.rest with
    | ':' :: ':' :: rest =>
      let tail := readGroups (7 - head.groups.length) 0 rest
      have h : head.groups.length + tail.groups.length ≤ 8 := by
        have hhead := length_readGroups_le 8 0 p
        have htail := length_readGroups_le (7 - head.groups.length) 0 rest
        change head.groups.length ≤ 8 at hhead
        change tail.groups.length ≤ 7 - head.groups.length at htail
        omega
      some (ofParts head.groups tail.groups h, tail.rest)
    | _ => none

/-- `str::parse`. -/
def parse (text : List Char) : Option Ipv6Addr :=
  match read text with
  | some (x, []) => some x
  | _ => none

end Ipv6Addr

/-! ## Reading an address back -/

variable {rest : List Char}

namespace Ipv4Addr

theorem readNumber_octet {n : Nat} (hn : n < 256) (hrest : Ends 10 rest) :
    readNumber 10 3 256 false (Nat.toDigits 10 n ++ rest) = some (n, rest) := by
  have hlen : (Nat.toDigits 10 n).length ≤ 3 :=
    (Nat.length_toDigits_le_iff (by decide) (by decide)).mpr (by omega)
  exact readNumber_toDigits (by decide) (by decide) hn hlen hrest

theorem read_text (x : Ipv4Addr) (hrest : Ends 10 rest) :
    read (x.text ++ rest) = some (x, rest) := by
  have hdot : ∀ p, Ends 10 ('.' :: p) := fun _ => by rfl
  have hfirst : ∀ (n : UInt8) p, Ends 10 p →
      readOctet 0 (Nat.toDigits 10 n.toNat ++ p) = some (n.toNat, p) :=
    fun n p hp => readNumber_octet n.toNat_lt hp
  have hnext : ∀ i (n : UInt8) p, Ends 10 p →
      readOctet (i + 1) ('.' :: (Nat.toDigits 10 n.toNat ++ p)) = some (n.toNat, p) :=
    fun i n p hp => readNumber_octet n.toNat_lt hp
  simp only [read, text, List.append_assoc, List.cons_append, hfirst _ _ (hdot _),
    hnext _ _ _ (hdot _), hnext _ _ _ hrest, Option.bind_eq_bind, Option.bind_some,
    Option.pure_def, UInt8.ofNat_toNat]

theorem length_text_le (x : Ipv4Addr) : x.text.length ≤ 15 := by
  have hlen : ∀ n : UInt8, (Nat.toDigits 10 n.toNat).length ≤ 3 := fun n =>
    (Nat.length_toDigits_le_iff (by decide) (by decide)).mpr (by have := n.toNat_lt; omega)
  have ha := hlen x.a
  have hb := hlen x.b
  have hc := hlen x.c
  have hd := hlen x.d
  simp only [text, List.length_append, List.length_cons]
  omega

theorem mem_text {x : Ipv4Addr} {c : Char} (hc : c ∈ x.text) :
    c = '.' ∨ ∃ d < 10, c = d.digitChar := by
  have hdigit : ∀ n, c ∈ Nat.toDigits 10 n → c = '.' ∨ ∃ d < 10, c = d.digitChar := fun n h =>
    .inr (exists_of_mem_toDigits (by decide) h)
  simp only [text, List.mem_append, List.mem_cons] at hc
  rcases hc with hc | hc | hc | hc | hc | hc | hc
  · exact hdigit _ hc
  · exact .inl hc
  · exact hdigit _ hc
  · exact .inl hc
  · exact hdigit _ hc
  · exact .inl hc
  · exact hdigit _ hc

theorem parse_text (x : Ipv4Addr) : parse x.text = some x := by
  have hread : read (x.text ++ []) = some (x, []) := read_text x trivial
  rw [List.append_nil] at hread
  rw [parse, if_neg (Nat.not_lt.mpr x.length_text_le), hread]

/-- The characters of IPv4 addresses. -/
def DigitOrDot (c : Char) : Prop := c = '.' ∨ '0' ≤ c ∧ c ≤ '9'

theorem digitOrDot_of_readOctet {index n : Nat} {p rest : List Char}
    (h : readOctet index p = some (n, rest)) (hrest : ∀ c ∈ rest, DigitOrDot c) :
    ∀ c ∈ p, DigitOrDot c := by
  have hnumber : ∀ p : List Char, readNumber 10 3 256 false p = some (n, rest) →
      ∀ c ∈ p, DigitOrDot c := by
    intro p hread c hc
    rw [← List.takeWhile_append_dropWhile (p := fun c => (toDigit 10 c).isSome) (l := p),
      ← rest_of_readNumber hread] at hc
    rcases List.mem_append.mp hc with hdigit | hc
    · exact .inr (le_of_toDigit_ten (List.all_eq_true.mp List.all_takeWhile c hdigit))
    · exact hrest c hc
  unfold readOctet readSeparator at h
  split at h
  · exact hnumber p h
  split at h
  · cases h
  case h_2 sep p =>
    split at h
    case isTrue hdot => exact List.forall_mem_cons.mpr ⟨.inl hdot, hnumber p h⟩
    case isFalse => cases h

theorem digitOrDot_of_parse {text : List Char} {x : Ipv4Addr} (h : parse text = some x) :
    ∀ c ∈ text, DigitOrDot c := by
  rw [parse] at h
  split at h
  · cases h
  split at h
  case h_2 => cases h
  case h_1 y hread =>
    simp only [read, Option.bind_eq_bind, Option.bind_eq_some_iff, Prod.exists, Option.pure_def,
      Option.some.injEq, Prod.mk.injEq] at hread
    obtain ⟨a, p₁, h₁, b, p₂, h₂, c, p₃, h₃, d, p₄, h₄, -, rfl⟩ := hread
    refine digitOrDot_of_readOctet h₁ (digitOrDot_of_readOctet h₂ ?_)
    exact digitOrDot_of_readOctet h₃ (digitOrDot_of_readOctet h₄ (List.forall_mem_nil _))

end Ipv4Addr

/-- An address needs a dot after its first number. -/
theorem Ipv4Addr.read_eq_none {p : List Char}
    (h : (p.dropWhile fun c => (toDigit 10 c).isSome).head? ≠ some '.') : read p = none := by
  cases hfirst : readOctet 0 p with
  | none => simp [read, hfirst]
  | some first =>
    obtain ⟨a, rest⟩ := first
    have hrest : rest = p.dropWhile fun c => (toDigit 10 c).isSome := rest_of_readNumber hfirst
    have hsecond : readOctet 1 rest = none := by
      rw [← hrest] at h
      cases rest with
      | nil => rfl
      | cons c rest =>
        have hc : c ≠ '.' := fun hc => h (by rw [hc]; rfl)
        simp [readOctet, readSeparator, hc]
    simp [read, hfirst, hsecond]

/-- The text is over, or goes on with a colon. -/
abbrev AtColon (rest : List Char) : Prop := Delimited.Stops (· = ':') rest

theorem AtColon.ends {radix : Nat} (h : AtColon rest) : Ends radix rest := by
  cases rest with
  | nil => trivial
  | cons c rest =>
    obtain rfl : c = ':' := h
    change (digitValue ':').filter _ = none
    rfl

theorem Ipv4Addr.read_group {n : Nat} (hrest : AtColon rest) :
    read (Nat.toDigits 16 n ++ rest) = none := by
  apply read_eq_none
  rw [List.dropWhile_append]
  split
  case isTrue =>
    cases rest with
    | nil => simp
    | cons c rest =>
      obtain rfl : c = ':' := hrest
      simp [toDigit, digitValue]
  case isFalse h =>
    rw [List.head?_append_of_ne_nil _ (by simpa using h)]
    intro hdot
    have hmem : '.' ∈ Nat.toDigits 16 n :=
      (List.dropWhile_sublist _).subset (List.mem_of_mem_head? hdot)
    obtain ⟨d, hd, hchar⟩ := exists_of_mem_toDigits (by decide) hmem
    exact Nat.digitChar_ne '.' (by decide) hchar.symm

theorem readNumber_group {s : UInt16} (hrest : AtColon rest) :
    readNumber 16 4 65536 true (Nat.toDigits 16 s.toNat ++ rest) = some (s.toNat, rest) := by
  have hlen : (Nat.toDigits 16 s.toNat).length ≤ 4 :=
    (Nat.length_toDigits_le_iff (by decide) (by decide)).mpr s.toNat_lt
  exact readNumber_toDigits (by decide) (by decide) s.toNat_lt hlen hrest.ends

/-- No group goes on with the rest: the text is over, or two colons follow. -/
def GroupsEnd (rest : List Char) : Prop := rest = [] ∨ ∃ tail, rest = ':' :: ':' :: tail

theorem GroupsEnd.atColon (h : GroupsEnd rest) : AtColon rest := by
  rcases h with rfl | ⟨tail, rfl⟩
  · trivial
  · rfl

theorem GroupsEnd.readSeparator {α : Type*} {inner : List Char → Option (α × List Char)}
    (h : GroupsEnd rest) (index : Nat) (hnil : inner [] = none)
    (hcolon : ∀ tail, inner (':' :: tail) = none) : readSeparator ':' index inner rest = none := by
  by_cases hindex : index = 0
  · subst index
    rcases h with rfl | ⟨tail, rfl⟩
    · exact hnil
    · exact hcolon _
  · rcases h with rfl | ⟨tail, rfl⟩
    · simp [Net.readSeparator, hindex]
    · simp [Net.readSeparator, hindex, hcolon]

theorem GroupsEnd.readGroups (h : GroupsEnd rest) (room index : Nat) :
    readGroups room index rest = ⟨[], false, rest⟩ := by
  cases room with
  | zero => rfl
  | succ room =>
    have hread : Net.readSeparator ':' index Ipv4Addr.read rest = none :=
      h.readSeparator index rfl fun tail =>
        Ipv4Addr.read_eq_none (by simp [toDigit, digitValue])
    have hnumber : Net.readSeparator ':' index (readNumber 16 4 65536 true) rest = none :=
      h.readSeparator index rfl fun tail => by
        simp [readNumber, readDigits, toDigit, digitValue]
    rw [Net.readGroups, hread, hnumber]
    simp

namespace Ipv6Addr

/-- The groups after the first one, each after a colon. -/
def furtherGroups (chunk : List UInt16) : List Char :=
  chunk.flatMap fun s => ':' :: Nat.toDigits 16 s.toNat

theorem fmtSubslice_cons (s : UInt16) (chunk : List UInt16) :
    fmtSubslice (s :: chunk) = Nat.toDigits 16 s.toNat ++ furtherGroups chunk := by
  induction chunk generalizing s with
  | nil => simp [fmtSubslice, furtherGroups]
  | cons t chunk ih =>
    have hcons : fmtSubslice (s :: t :: chunk) =
        Nat.toDigits 16 s.toNat ++ ':' :: fmtSubslice (t :: chunk) := by
      simp [fmtSubslice, List.intercalate_cons_cons]
    rw [hcons, ih]
    simp [furtherGroups]

theorem atColon_furtherGroups (chunk : List UInt16) (h : AtColon rest) :
    AtColon (furtherGroups chunk ++ rest) := by
  cases chunk with
  | nil => exact h
  | cons s chunk => rfl

/-- One group is read as itself, whatever groups follow. -/
theorem readGroups_succ {room index : Nat} {s : UInt16} {p rest : List Char}
    (hseparator : ∀ (α : Type) (inner : List Char → Option (α × List Char)),
      readSeparator ':' index inner p = inner (Nat.toDigits 16 s.toNat ++ rest))
    (hrest : AtColon rest) :
    readGroups (room + 1) index p =
      { readGroups room (index + 1) rest with
        groups := s :: (readGroups room (index + 1) rest).groups } := by
  rw [readGroups, hseparator, hseparator, Ipv4Addr.read_group hrest, readNumber_group hrest]
  simp

theorem readGroups_furtherGroups {room index : Nat} {chunk : List UInt16}
    (hroom : chunk.length ≤ room) (hindex : index ≠ 0) (hrest : GroupsEnd rest) :
    readGroups room index (furtherGroups chunk ++ rest) = ⟨chunk, false, rest⟩ := by
  induction chunk generalizing room index with
  | nil => exact hrest.readGroups room index
  | cons s chunk ih =>
    obtain ⟨room, rfl⟩ : ∃ r, room = r + 1 :=
      Nat.exists_eq_succ_of_ne_zero (Nat.ne_of_gt (Nat.lt_of_lt_of_le (Nat.succ_pos _) hroom))
    have htext : furtherGroups (s :: chunk) ++ rest =
        ':' :: (Nat.toDigits 16 s.toNat ++ (furtherGroups chunk ++ rest)) := by
      simp [furtherGroups]
    rw [htext, readGroups_succ (s := s) (fun α inner => by simp [readSeparator, hindex])
      (atColon_furtherGroups chunk hrest.atColon),
      ih (Nat.le_of_succ_le_succ hroom) (Nat.succ_ne_zero index)]

theorem readGroups_fmtSubslice {room : Nat} {chunk : List UInt16}
    (hroom : chunk.length ≤ room) (hrest : GroupsEnd rest) :
    readGroups room 0 (fmtSubslice chunk ++ rest) = ⟨chunk, false, rest⟩ := by
  cases chunk with
  | nil => exact hrest.readGroups room 0
  | cons s chunk =>
    obtain ⟨room, rfl⟩ : ∃ r, room = r + 1 :=
      Nat.exists_eq_succ_of_ne_zero (Nat.ne_of_gt (Nat.lt_of_lt_of_le (Nat.succ_pos _) hroom))
    rw [fmtSubslice_cons, List.append_assoc, readGroups_succ (fun α inner => rfl)
      (atColon_furtherGroups chunk hrest.atColon),
      readGroups_furtherGroups (Nat.le_of_succ_le_succ hroom) (Nat.succ_ne_zero 0) hrest]

/-! ### The stretch of zeroes -/

/-- Every segment of the stretch is there and is zero. -/
def Zero (segments : List UInt16) (span : Span) : Prop :=
  ∀ j, span.start ≤ j → j < span.start + span.len → segments[j]? = some 0

theorem zero_longestZeroes {segments rest : List UInt16} {index : Nat} {current longest : Span}
    (hrest : segments.drop index = rest) (hlongest : Zero segments longest)
    (hcurrent : Zero segments current)
    (hindex : current.len ≠ 0 → current.start + current.len = index) :
    Zero segments (longestZeroes index current longest rest) := by
  induction rest generalizing index current longest with
  | nil => exact hlongest
  | cons s rest ih =>
    have hs : segments[index]? = some s := by
      rw [← List.head?_drop, hrest, List.head?_cons]
    have hdrop : segments.drop (index + 1) = rest := by
      rw [← List.drop_drop, hrest, List.drop_one, List.tail_cons]
    rw [longestZeroes]
    split
    case isTrue hzero =>
      subst s
      have hgrown : Zero segments
          ⟨if current.len = 0 then index else current.start, current.len + 1⟩ := by
        intro j hj hj'
        dsimp only at hj hj'
        by_cases hjindex : j = index
        · rw [hjindex, hs]
        · split at hj
          case isTrue h0 => rw [if_pos h0] at hj'; omega
          case isFalse h0 =>
            rw [if_neg h0] at hj'
            exact hcurrent j hj (by have := hindex h0; omega)
      refine ih hdrop ?_ hgrown ?_
      · by_cases hlt : longest.len < current.len + 1
        · rw [if_pos hlt]
          exact hgrown
        · rw [if_neg hlt]
          exact hlongest
      · intro _
        dsimp only
        split
        case isTrue h0 => omega
        case isFalse h0 => have := hindex h0; omega
    case isFalse =>
      exact ih hdrop hlongest (fun j hj hj' => absurd hj (by dsimp only at hj'; omega))
        (fun h => absurd rfl h)

theorem zero_zeroes (x : Ipv6Addr) : Zero x.segments x.zeroes := by
  have hnone : Zero x.segments ⟨0, 0⟩ := fun j _ hj => absurd hj (Nat.not_lt_zero j)
  exact zero_longestZeroes rfl hnone hnone fun h => absurd rfl h

theorem Zero.le_length {segments : List UInt16} {span : Span} (h : Zero segments span)
    (hlen : 0 < span.len) : span.start + span.len ≤ segments.length := by
  have hlast := h (span.start + span.len - 1) (by omega) (by omega)
  obtain ⟨hlt, -⟩ := List.getElem?_eq_some_iff.mp hlast
  omega

/-- The segments are those before the stretch, zeroes, and those after it. -/
theorem Zero.segments_eq {segments : List UInt16} {span : Span} (h : Zero segments span)
    (hlen : 0 < span.len) :
    segments.take span.start ++ List.replicate span.len 0 ++
      segments.drop (span.start + span.len) = segments := by
  have hle := h.le_length hlen
  have hmiddle : (segments.drop span.start).take span.len = List.replicate span.len 0 := by
    refine List.eq_replicate_iff.mpr ⟨by simp; omega, fun s hs => ?_⟩
    obtain ⟨j, hj, rfl⟩ := List.mem_iff_getElem.mp hs
    simp only [List.length_take, List.length_drop] at hj
    have hzero := h (span.start + j) (by omega) (by omega)
    obtain ⟨hlt, hget⟩ := List.getElem?_eq_some_iff.mp hzero
    simpa using hget
  rw [← hmiddle, List.append_assoc, ← List.drop_drop, List.take_append_drop,
    List.take_append_drop]

/-! ### The whole address -/

theorem segments_of_toIpv4Mapped {x : Ipv6Addr} {embedded : Ipv4Addr}
    (h : x.toIpv4Mapped = some embedded) :
    x.segments = [0, 0, 0, 0, 0, 0xffff] ++ embedded.segments := by
  have hbytes : ∀ s : UInt16, (s / 256).toUInt8.toUInt16 * 256 + s.toUInt8.toUInt16 = s := by
    intro s
    apply UInt16.toNat_inj.mp
    have hs := s.toNat_lt
    simp
    omega
  rw [toIpv4Mapped] at h
  split at h
  case h_1 ab cd hsegments =>
    obtain rfl := Option.some.inj h
    rw [hsegments, Ipv4Addr.segments, hbytes, hbytes]
    rfl
  case h_2 => cases h

theorem read_of_parts {p rest : List Char} {head tail : List UInt16}
    (hhead : readGroups 8 0 p = ⟨head, false, ':' :: ':' :: rest⟩) (hlen : head.length ≠ 8)
    {ipv4 : Bool} (htail : readGroups (7 - head.length) 0 rest = ⟨tail, ipv4, []⟩) {x : Ipv6Addr}
    (hx : head ++ List.replicate (8 - head.length - tail.length) 0 ++ tail = x.segments) :
    read p = some (x, []) := by
  obtain ⟨segments, hsegments⟩ := x
  obtain rfl := hx
  simp only [read, hhead, hlen, htail, dite_false, ofParts, Bool.false_eq_true, if_false]

theorem read_mapped {x : Ipv6Addr} {embedded : Ipv4Addr}
    (h : x.toIpv4Mapped = some embedded) :
    read ("::ffff:".toList ++ embedded.text) = some (x, []) := by
  have hhead : readGroups 8 0 ("::ffff:".toList ++ embedded.text) =
      ⟨[], false, ':' :: ':' :: ("ffff:".toList ++ embedded.text)⟩ :=
    GroupsEnd.readGroups (.inr ⟨_, rfl⟩) 8 0
  have hembedded : readGroups 6 1 (':' :: embedded.text) = ⟨embedded.segments, true, []⟩ := by
    have hread : Ipv4Addr.read (embedded.text ++ []) = some (embedded, []) :=
      embedded.read_text trivial
    rw [List.append_nil] at hread
    simp [readGroups, readSeparator, hread]
  have hcolon : AtColon (':' :: embedded.text) := rfl
  have htail : readGroups 7 0 ("ffff:".toList ++ embedded.text) =
      ⟨0xffff :: embedded.segments, true, []⟩ := by
    rw [readGroups_succ (s := 0xffff) (fun _ _ => rfl) hcolon, hembedded]
  exact read_of_parts hhead (by decide) htail (segments_of_toIpv4Mapped h).symm

theorem read_compressed {x : Ipv6Addr} (hlen : 1 < x.zeroes.len) :
    read (fmtSubslice (x.segments.take x.zeroes.start) ++ "::".toList ++
      fmtSubslice (x.segments.drop (x.zeroes.start + x.zeroes.len))) = some (x, []) := by
  have hle := x.zero_zeroes.le_length (by omega)
  rw [x.length_segments] at hle
  obtain ⟨head, hhead⟩ : ∃ head, head = x.segments.take x.zeroes.start := ⟨_, rfl⟩
  obtain ⟨tail, htail⟩ : ∃ tail, tail = x.segments.drop (x.zeroes.start + x.zeroes.len) :=
    ⟨_, rfl⟩
  have hheadLen : head.length = x.zeroes.start := by
    rw [hhead, List.length_take, x.length_segments]
    omega
  have htailLen : tail.length = 8 - (x.zeroes.start + x.zeroes.len) := by
    rw [htail, List.length_drop, x.length_segments]
  have hsegments : head ++ List.replicate (8 - head.length - tail.length) 0 ++ tail =
      x.segments := by
    have hzeroes : 8 - head.length - tail.length = x.zeroes.len := by omega
    rw [hzeroes, hhead, htail, x.zero_zeroes.segments_eq (by omega)]
  have hread : readGroups (7 - head.length) 0 (fmtSubslice tail ++ []) = ⟨tail, false, []⟩ :=
    readGroups_fmtSubslice (by omega) (.inl rfl)
  rw [List.append_nil] at hread
  rw [← hhead, ← htail, List.append_assoc]
  exact read_of_parts (readGroups_fmtSubslice (by omega) (.inr ⟨_, rfl⟩)) (by omega) hread
    hsegments

theorem read_full (x : Ipv6Addr) : read (fmtSubslice x.segments) = some (x, []) := by
  have hread : readGroups 8 0 (fmtSubslice x.segments ++ []) = ⟨x.segments, false, []⟩ :=
    readGroups_fmtSubslice (Nat.le_of_eq x.length_segments) (.inl rfl)
  rw [List.append_nil] at hread
  simp only [read, hread, x.length_segments, dite_true]

theorem parse_text (x : Ipv6Addr) : parse x.text = some x := by
  suffices hread : read x.text = some (x, []) by rw [parse, hread]
  rw [text]
  split
  case h_1 embedded h => exact read_mapped h
  case h_2 =>
    split
    case isTrue h => exact read_compressed h
    case isFalse => exact read_full x

theorem mem_fmtSubslice {chunk : List UInt16} {c : Char} (hc : c ∈ fmtSubslice chunk) :
    c = ':' ∨ ∃ d < 16, c = d.digitChar := by
  cases chunk with
  | nil => cases hc
  | cons s chunk =>
    rw [fmtSubslice_cons, List.mem_append] at hc
    rcases hc with hc | hc
    · exact .inr (exists_of_mem_toDigits (by decide) hc)
    · obtain ⟨t, -, ht⟩ := List.mem_flatMap.mp hc
      rcases List.mem_cons.mp ht with rfl | ht
      · exact .inl rfl
      · exact .inr (exists_of_mem_toDigits (by decide) ht)

theorem mem_text {x : Ipv6Addr} {c : Char} (hc : c ∈ x.text) :
    c = ':' ∨ c = '.' ∨ ∃ d < 16, c = d.digitChar := by
  rw [text] at hc
  split at hc
  case h_1 embedded _ =>
    rcases List.mem_append.mp hc with hc | hc
    · have hfixed : c ∈ [':', ':', 'f', 'f', 'f', 'f', ':'] := hc
      by_cases hcolon : c = ':'
      · exact .inl hcolon
      · have hf : c = 'f' := by simpa [hcolon] using hfixed
        exact .inr (.inr ⟨15, by decide, hf⟩)
    · rcases Ipv4Addr.mem_text hc with rfl | ⟨d, hd, rfl⟩
      · exact .inr (.inl rfl)
      · exact .inr (.inr ⟨d, by omega, rfl⟩)
  case h_2 =>
    have hchunk : ∀ chunk, c ∈ fmtSubslice chunk →
        c = ':' ∨ c = '.' ∨ ∃ d < 16, c = d.digitChar := by
      intro chunk hc
      rcases mem_fmtSubslice hc with hcolon | hdigit
      · exact .inl hcolon
      · exact .inr (.inr hdigit)
    split at hc
    case isTrue =>
      rcases List.mem_append.mp hc with hc | hc
      · rcases List.mem_append.mp hc with hc | hc
        · exact hchunk _ hc
        · exact .inl (by simpa using hc)
      · exact hchunk _ hc
    case isFalse => exact hchunk _ hc

end Ipv6Addr

end Net
