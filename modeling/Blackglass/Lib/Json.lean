import Blackglass.Lib.Text
import Mathlib.Data.List.Sort
import Mathlib.Data.Nat.Digits.Defs

/-!
# JSON values and their text

Values as a parser hands them to a program, the accessors a program reads them with,
and the compact text of flat objects.  An integer in a JSON text may have any number of
digits; the accessor `asI64` is the one that knows the machine's range.
-/

namespace Json

open Text

/-! ## Values -/

/-- A JSON number is either written as an integer or not; what the others are is never
looked at. -/
inductive Number where
  | int (n : Int)
  | other (text : String)
deriving DecidableEq

inductive Value where
  | null
  | bool (b : Bool)
  | number (n : Number)
  | string (s : String)
  | array (items : List Value)
  | object (members : List (String × Value))

namespace Value

/-- A member of an object; of members with one name a parser keeps the last. -/
def get (v : Value) (key : String) : Option Value :=
  match v with
  | .object members => (members.reverse.find? fun m => m.1 = key).map (·.2)
  | _ => none

/-- An object without a member. -/
def remove (v : Value) (key : String) : Value :=
  match v with
  | .object members => .object (members.filter fun m => m.1 ≠ key)
  | v => v

def asStr : Value → Option String
  | .string s => some s
  | _ => none

def asBool : Value → Option Bool
  | .bool b => some b
  | _ => none

/-- An integer in the range of `i64`. -/
def asI64 : Value → Option Int
  | .number (.int n) => if -9223372036854775808 ≤ n ∧ n ≤ 9223372036854775807 then some n else none
  | _ => none

/-- An integer in the range of `u64`. -/
def asU64 : Value → Option Nat
  | .number (.int n) => if 0 ≤ n ∧ n ≤ 18446744073709551615 then some n.toNat else none
  | _ => none

def asArray : Value → Option (List Value)
  | .array items => some items
  | _ => none

def asObject : Value → Option (List (String × Value))
  | .object members => some members
  | _ => none

/-- The fields of a record, as a derived decoder finds them: by name in an object, where a
field may be missing, or in order in an array of just that many items. -/
def structFields (v : Value) (names : List String) : Option (List (Option Value)) :=
  match v with
  | .object _ => some (names.map v.get)
  | .array items => if items.length = names.length then some (items.map some) else none
  | _ => none

end Value

/-- A field of type `Option<String>`: missing and `null` are `None`, and a value of another
type fails the whole record. -/
def optionStr : Option Value → Option (Option String)
  | none | some .null => some none
  | some v => v.asStr.map some

/-- A field of type `Option<i64>`. -/
def optionI64 : Option Value → Option (Option Int)
  | none | some .null => some none
  | some v => v.asI64.map some

/-! ## Text -/

/-- The characters a JSON writer puts into a string for one character. -/
def escape (c : Char) : List Char :=
  if c = '"' then ['\\', '"']
  else if c = '\\' then ['\\', '\\']
  else if c.toNat = 8 then ['\\', 'b']
  else if c.toNat = 9 then ['\\', 't']
  else if c.toNat = 10 then ['\\', 'n']
  else if c.toNat = 12 then ['\\', 'f']
  else if c.toNat = 13 then ['\\', 'r']
  else if c.toNat < 0x20 then
    ['\\', 'u', '0', '0', hexDigit (c.toNat / 16), hexDigit (c.toNat % 16)]
  else [c]

def encodeString (s : String) : String :=
  String.ofList ('"' :: s.toList.flatMap escape ++ ['"'])

def encodeOption (s : Option String) : String :=
  match s with
  | none => "null"
  | some s => encodeString s

def encodeBool (b : Bool) : String := if b then "true" else "false"

def encodeInt (n : Int) : String := toString n

/-- The members of an object, each with the text of its value. -/
def encodeMembers : List (String × String) → String
  | [] => ""
  | [(key, text)] => encodeString key ++ ":" ++ text
  | (key, text) :: rest => encodeString key ++ ":" ++ text ++ "," ++ encodeMembers rest

def encodeObject (members : List (String × String)) : String :=
  "\x7b" ++ encodeMembers members ++ "\x7d"

/-- The text of a map, which keeps its members in the order of their names. -/
def encodeMap (members : List (String × String)) : String :=
  encodeObject (members.insertionSort fun a b => a.1 ≤ b.1)

def encodeArray (items : List String) : String := "[" ++ ",".intercalate items ++ "]"

/-! ## Sizes -/

theorem utf8Size_of_isDigit {c : Char} (h : c.isDigit = true) : c.utf8Size = 1 := by
  simp only [Char.isDigit, Bool.and_eq_true, decide_eq_true_eq] at h
  have hnine : ('9' : Char).val ≤ 127 := by decide
  have hle : c.val ≤ 127 := UInt32.le_trans h.2 hnine
  simp [Char.utf8Size, hle]

theorem utf8Len_of_isDigit {cs : List Char} (h : ∀ c ∈ cs, c.isDigit = true) :
    String.utf8Len cs = cs.length := by
  induction cs with
  | nil => rfl
  | cons c cs ih =>
    rw [String.utf8Len_cons, List.length_cons, ih fun d hd => h d (List.mem_cons_of_mem _ hd),
      utf8Size_of_isDigit (h c List.mem_cons_self)]

/-- The text of a number below `10 ^ e` takes at most `e` bytes. -/
theorem encodeInt_utf8ByteSize_le {n : Int} {e : Nat} (he : 0 < e) (h₀ : 0 ≤ n) (h₁ : n < 10 ^ e) :
    (encodeInt n).utf8ByteSize ≤ e := by
  obtain ⟨m, rfl⟩ := Int.eq_ofNat_of_zero_le h₀
  have hdigits : ∀ c ∈ m.repr.toList, c.isDigit = true := by
    intro c hc
    rw [Nat.toList_repr] at hc
    exact Nat.isDigit_of_mem_toDigits (by decide) (by decide) hc
  calc (encodeInt m).utf8ByteSize = m.repr.utf8ByteSize := rfl
    _ = m.repr.toList.length := by
        rw [Text.utf8ByteSize_eq_utf8Len, utf8Len_of_isDigit hdigits]
    _ = m.repr.length := String.length_toList
    _ ≤ e := Nat.repr_length m e he (by exact_mod_cast h₁)

/-- The size of an object's text grows with the texts of its values. -/
theorem encodeMembers_utf8ByteSize_le {xs ys : List (String × String)}
    (h : List.Forall₂ (fun x y => x.1 = y.1 ∧ x.2.utf8ByteSize ≤ y.2.utf8ByteSize) xs ys) :
    (encodeMembers xs).utf8ByteSize ≤ (encodeMembers ys).utf8ByteSize := by
  induction h with
  | nil => exact le_refl _
  | @cons x y xs ys hxy hrest ih =>
    obtain ⟨key, text⟩ := x
    obtain ⟨key', text'⟩ := y
    obtain ⟨rfl, hle⟩ := hxy
    cases hrest with
    | nil =>
      simp only [encodeMembers, String.utf8ByteSize_append]
      simp only at hle
      omega
    | cons _ _ =>
      simp only [encodeMembers, String.utf8ByteSize_append] at ih ⊢
      simp only at hle
      omega

theorem encodeObject_utf8ByteSize_le {xs ys : List (String × String)}
    (h : List.Forall₂ (fun x y => x.1 = y.1 ∧ x.2.utf8ByteSize ≤ y.2.utf8ByteSize) xs ys) :
    (encodeObject xs).utf8ByteSize ≤ (encodeObject ys).utf8ByteSize := by
  simp only [encodeObject, String.utf8ByteSize_append]
  have := encodeMembers_utf8ByteSize_le h
  omega

/-- The bytes of one member, with its colon. -/
def memberSize (m : String × String) : Nat := (encodeString m.1).utf8ByteSize + 1 + m.2.utf8ByteSize

theorem encodeMembers_utf8ByteSize (members : List (String × String)) :
    (encodeMembers members).utf8ByteSize = (members.map memberSize).sum + (members.length - 1) := by
  induction members with
  | nil => rfl
  | cons m rest ih =>
    obtain ⟨key, text⟩ := m
    have hcolon : (":" : String).utf8ByteSize = 1 := rfl
    have hcomma : ("," : String).utf8ByteSize = 1 := rfl
    cases rest with
    | nil =>
      simp only [encodeMembers, String.utf8ByteSize_append, hcolon, memberSize, List.map_cons,
        List.map_nil, List.sum_cons, List.sum_nil, List.length_cons, List.length_nil]
      omega
    | cons m' rest =>
      simp only [encodeMembers, String.utf8ByteSize_append, hcolon, hcomma, ih, List.map_cons,
        List.sum_cons, List.length_cons]
      simp only [memberSize]
      omega

/-- The order of its members does not matter for the size of an object's text. -/
theorem encodeMap_utf8ByteSize (members : List (String × String)) :
    (encodeMap members).utf8ByteSize = (encodeObject members).utf8ByteSize := by
  have hperm := List.perm_insertionSort (fun a b : String × String => a.1 ≤ b.1) members
  simp only [encodeMap, encodeObject, String.utf8ByteSize_append, encodeMembers_utf8ByteSize,
    hperm.length_eq, (hperm.map memberSize).sum_nat]

/-! ## Arrays -/

/-- One more item at the end, with a separator unless it is the first. -/
theorem intercalate_concat (sep : String) (items : List String) (x : String) :
    sep.intercalate (items ++ [x]) =
      sep.intercalate items ++ (if items.isEmpty then "" else sep) ++ x := by
  induction items with
  | nil => simp [String.intercalate_nil, String.intercalate_singleton]
  | cons y items ih =>
    have hne : items ++ [x] ≠ [] := List.append_ne_nil_of_right_ne_nil _ (List.cons_ne_nil _ _)
    rw [List.cons_append, String.intercalate_cons_of_ne_nil hne, ih]
    cases items with
    | nil => simp [String.intercalate_nil, String.intercalate_singleton]
    | cons z items =>
      simp [String.intercalate_cons_of_ne_nil (List.cons_ne_nil z items), String.append_assoc]

/-- Items of at most `b` bytes each. -/
theorem encodeArray_utf8ByteSize_le {items : List String} {b : Nat}
    (h : ∀ x ∈ items, x.utf8ByteSize ≤ b) :
    (encodeArray items).utf8ByteSize ≤ items.length * (b + 1) + 2 := by
  have hitems : (",".intercalate items).utf8ByteSize ≤ items.length * (b + 1) := by
    induction items with
    | nil => simp [String.intercalate_nil]
    | cons x items ih =>
      have hx := h x List.mem_cons_self
      have hrest := ih fun y hy => h y (List.mem_cons_of_mem _ hy)
      rw [List.length_cons, Nat.succ_mul]
      cases items with
      | nil =>
        rw [String.intercalate_singleton]
        omega
      | cons y items =>
        have hcomma : (",": String).utf8ByteSize = 1 := rfl
        rw [String.intercalate_cons_of_ne_nil (List.cons_ne_nil y items),
          String.utf8ByteSize_append, String.utf8ByteSize_append, hcomma]
        omega
  have hopen : ("[" : String).utf8ByteSize = 1 := rfl
  have hclose : ("]" : String).utf8ByteSize = 1 := rfl
  rw [encodeArray, String.utf8ByteSize_append, String.utf8ByteSize_append, hopen, hclose]
  omega

end Json
