import Blackglass.Lib.Json
import Blackglass.Lib.Delimited
import Mathlib.Tactic.IntervalCases

/-!
# JSON text can be read in one way

The text of a string ends at its closing quote, because no escape sequence has an unescaped one;
the texts of arrays and objects are sequences in the sense of `Delimited`.  Two values that differ
in the order of members only are the `Same`.
-/

namespace Json

open Text Delimited

/-! ## Values -/

/-- The members of a value are its parts, at every depth. -/
theorem Value.parts_induction {P : Value → Prop} (null : P .null) (bool : ∀ b, P (.bool b))
    (number : ∀ n, P (.number n)) (string : ∀ s, P (.string s))
    (array : ∀ items, (∀ v ∈ items, P v) → P (.array items))
    (object : ∀ members, (∀ m ∈ members, P m.2) → P (.object members)) (v : Value) : P v :=
  @Value.rec P (fun items => ∀ v ∈ items, P v) (fun members => ∀ m ∈ members, P m.2)
    (fun m => P m.2) null bool number string array object (fun _ h => nomatch h)
    (fun _ _ hhead htail => List.forall_mem_cons.mpr ⟨hhead, htail⟩) (fun _ h => nomatch h)
    (fun _ _ hhead htail => List.forall_mem_cons.mpr ⟨hhead, htail⟩) (fun _ _ h => h) v

def Number.text : Number → String
  | .int n => encodeInt n
  | .other text => text

/-- Equal up to the order of members, at every depth; numbers are compared by their texts. -/
inductive Value.Same : Value → Value → Prop where
  | null : Same .null .null
  | bool (b : Bool) : Same (.bool b) (.bool b)
  | number {m n : Number} : m.text = n.text → Same (.number m) (.number n)
  | string (s : String) : Same (.string s) (.string s)
  | array {xs ys : List Value} : List.Forall₂ Same xs ys → Same (.array xs) (.array ys)
  | object {ms ms' ns ns' : List (String × Value)} : ms.Perm ms' → ns.Perm ns' →
      ms'.map Prod.fst = ns'.map Prod.fst →
      List.Forall₂ Same (ms'.map Prod.snd) (ns'.map Prod.snd) → Same (.object ms) (.object ns)

/-! ## Strings -/

def hexValue (c : Char) : Nat := if c.toNat < 58 then c.toNat - 48 else c.toNat - 87

/-- Reads the first character of an encoded string, and what is left. -/
def unescape : List Char → Option (Char × List Char)
  | '\\' :: '"' :: r => some ('"', r)
  | '\\' :: '\\' :: r => some ('\\', r)
  | '\\' :: 'b' :: r => some (Char.ofNat 8, r)
  | '\\' :: 't' :: r => some (Char.ofNat 9, r)
  | '\\' :: 'n' :: r => some (Char.ofNat 10, r)
  | '\\' :: 'f' :: r => some (Char.ofNat 12, r)
  | '\\' :: 'r' :: r => some (Char.ofNat 13, r)
  | '\\' :: 'u' :: '0' :: '0' :: a :: b :: r => some (Char.ofNat (16 * hexValue a + hexValue b), r)
  | c :: r => some (c, r)
  | [] => none

theorem unescape_escape (c : Char) (r : List Char) : unescape (escape c ++ r) = some (c, r) := by
  by_cases hcontrol : c.toNat < 32
  · have hall : ∀ n < 32, unescape (escape (Char.ofNat n) ++ r) = some (Char.ofNat n, r) := by
      intro n hn
      interval_cases n <;> rfl
    have hc := hall c.toNat hcontrol
    rwa [Char.ofNat_toNat] at hc
  · by_cases hquote : c = '"'
    · rw [hquote]
      rfl
    by_cases hslash : c = '\\'
    · rw [hslash]
      rfl
    have hplain : escape c = [c] := by
      unfold escape
      rw [if_neg hquote, if_neg hslash, if_neg (by omega), if_neg (by omega), if_neg (by omega),
        if_neg (by omega), if_neg (by omega), if_neg hcontrol]
    rw [hplain, List.singleton_append]
    unfold unescape
    split <;> simp_all

theorem escape_append_inj {c d : Char} {r s : List Char} (h : escape c ++ r = escape d ++ s) :
    c = d ∧ r = s := by
  have hread := congrArg unescape h
  rw [unescape_escape, unescape_escape] at hread
  exact Prod.mk.inj (Option.some.inj hread)

/-- An escape sequence does not begin with a quote. -/
theorem escape_ne_quote (c : Char) (r s : List Char) : escape c ++ r ≠ '"' :: s := by
  intro h
  have hread := congrArg unescape h
  rw [unescape_escape] at hread
  obtain rfl : c = '"' := (Prod.mk.inj (Option.some.inj hread)).1
  cases h

theorem flatMap_escape_inj {cs ds r s : List Char}
    (h : cs.flatMap escape ++ '"' :: r = ds.flatMap escape ++ '"' :: s) : cs = ds ∧ r = s := by
  induction cs generalizing ds with
  | nil =>
    cases ds with
    | nil => exact ⟨rfl, (List.cons.inj h).2⟩
    | cons d ds =>
      rw [List.flatMap_cons, List.append_assoc] at h
      exact absurd h.symm (escape_ne_quote d _ _)
  | cons c cs ih =>
    cases ds with
    | nil =>
      rw [List.flatMap_cons, List.append_assoc] at h
      exact absurd h (escape_ne_quote c _ _)
    | cons d ds =>
      rw [List.flatMap_cons, List.flatMap_cons, List.append_assoc, List.append_assoc] at h
      obtain ⟨rfl, hrest⟩ := escape_append_inj h
      obtain ⟨rfl, hr⟩ := ih hrest
      exact ⟨rfl, hr⟩

theorem encodeString_toList (s : String) (r : List Char) :
    (encodeString s).toList ++ r = '"' :: (s.toList.flatMap escape ++ '"' :: r) := by
  rw [encodeString, String.toList_ofList]
  simp only [List.cons_append, List.append_assoc, List.nil_append]

/-- The text of a string says where it ends. -/
theorem encodeString_inj {s t : String} {r r' : List Char}
    (h : (encodeString s).toList ++ r = (encodeString t).toList ++ r') : s = t ∧ r = r' := by
  rw [encodeString_toList, encodeString_toList] at h
  obtain ⟨hchars, hr⟩ := flatMap_escape_inj (List.cons.inj h).2
  exact ⟨String.toList_injective hchars, hr⟩

/-! ## Arrays and objects -/

theorem intercalate_toList (items : List String) (close : Char) (r : List Char) :
    (",".intercalate items).toList ++ close :: r = separated ',' close String.toList items r := by
  cases items with
  | nil => rw [String.intercalate_nil]; rfl
  | cons x items =>
    rw [separated]
    induction items generalizing x with
    | nil => rw [String.intercalate_singleton]; rfl
    | cons y items ih =>
      rw [String.intercalate_cons_cons, String.toList_append, String.toList_append,
        List.append_assoc, List.append_assoc, ih y]
      rfl

theorem encodeArray_toList (items : List String) (r : List Char) :
    (encodeArray items).toList ++ r = '[' :: separated ',' ']' String.toList items r := by
  rw [← intercalate_toList, encodeArray, String.toList_append, String.toList_append,
    List.append_assoc, List.append_assoc]
  rfl

/-- A member with its colon. -/
def memberText (m : String × String) : List Char := (encodeString m.1).toList ++ ':' :: m.2.toList

theorem encodeMembers_toList (members : List (String × String)) (r : List Char) :
    (encodeMembers members).toList ++ '\x7d' :: r = separated ',' '\x7d' memberText members r := by
  have hcolon : (":" : String).toList = [':'] := rfl
  have hcomma : ("," : String).toList = [','] := rfl
  cases members with
  | nil => rfl
  | cons m members =>
    rw [separated]
    induction members generalizing m with
    | nil =>
      simp only [encodeMembers, String.toList_append, hcolon, memberText, further,
        List.append_assoc, List.cons_append, List.nil_append]
    | cons m' members ih =>
      rw [further, ← ih m']
      simp only [encodeMembers, String.toList_append, hcolon, hcomma, memberText,
        List.append_assoc, List.cons_append, List.nil_append]

theorem encodeObject_toList (members : List (String × String)) (r : List Char) :
    (encodeObject members).toList ++ r =
      '\x7b' :: separated ',' '\x7d' memberText members r := by
  rw [← encodeMembers_toList, encodeObject, String.toList_append, String.toList_append,
    List.append_assoc, List.append_assoc]
  rfl

end Json
