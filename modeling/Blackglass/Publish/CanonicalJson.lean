import Mathlib
import Blackglass.Lib.JsonText

/-!
# The canonical text of a manifest

A manifest is signed by the digest of its canonical text: arrays in order, the members of objects
by their names, no white space.  Two values have one canonical text just if they differ in the
order of members only, so that a digest stands for one list of assets.

The values of `serde_json` are those of `SerdeValue`: its objects are maps, and a number that is
no integer has a text that is no integer's and has no punctuation in it.
-/

namespace Blackglass

open Json Delimited

/-! ## The values of `serde_json` -/

def isJsonPunctuation (c : Char) : Bool := c ∈ ['\x7b', '\x7d', '[', ']', ':', ',', '"']

/-- A text that can be taken for nothing but a number. -/
def IsNumeral (text : String) : Prop :=
  text ≠ "" ∧ (∀ c ∈ text.toList, isJsonPunctuation c = false) ∧
    text ∉ ["null", "true", "false"]

/-- What `serde_json` builds. -/
inductive IsSerde : Value → Prop where
  | null : IsSerde .null
  | bool (b : Bool) : IsSerde (.bool b)
  | int (n : Int) : IsSerde (.number (.int n))
  | other {text : String} : IsNumeral text → (∀ n : Int, text ≠ encodeInt n) →
      IsSerde (.number (.other text))
  | string (s : String) : IsSerde (.string s)
  | array {items : List Value} : (∀ v ∈ items, IsSerde v) → IsSerde (.array items)
  | object {members : List (String × Value)} : (members.map Prod.fst).Nodup →
      (∀ m ∈ members, IsSerde m.2) → IsSerde (.object members)

/-- A value of `serde_json`. -/
structure SerdeValue where
  value : Value
  serde : IsSerde value

/-! ## The function -/

mutual

/-- `canonical_json`.  The members are sorted after their values have been written. -/
def canonicalJson : Value → String
  | .null => "null"
  | .bool b => encodeBool b
  | .number n => n.text
  | .string s => encodeString s
  | .array items => encodeArray (canonicalItems items)
  | .object members => encodeMap (canonicalMembers members)

def canonicalItems : List Value → List String
  | [] => []
  | v :: items => canonicalJson v :: canonicalItems items

def canonicalMembers : List (String × Value) → List (String × String)
  | [] => []
  | (key, v) :: members => (key, canonicalJson v) :: canonicalMembers members

end

theorem canonicalItems_eq (items : List Value) :
    canonicalItems items = items.map canonicalJson := by
  induction items with
  | nil => rfl
  | cons v items ih => rw [canonicalItems, ih, List.map_cons]

theorem canonicalMembers_eq (members : List (String × Value)) :
    canonicalMembers members = members.map fun m => (m.1, canonicalJson m.2) := by
  induction members with
  | nil => rfl
  | cons m members ih => rw [canonicalMembers, ih, List.map_cons]

/-- The members as they are written. -/
def sortedMembers (members : List (String × Value)) : List (String × Value) :=
  members.insertionSort fun a b => a.1 ≤ b.1

theorem sortedMembers_perm (members : List (String × Value)) :
    (sortedMembers members).Perm members :=
  List.perm_insertionSort _ _

/-- Sorting before or after the values are written is the same. -/
theorem canonicalJson_object (members : List (String × Value)) :
    canonicalJson (.object members) =
      encodeObject ((sortedMembers members).map fun m => (m.1, canonicalJson m.2)) := by
  rw [canonicalJson, canonicalMembers_eq, encodeMap, sortedMembers]
  refine congrArg encodeObject (List.map_insertionSort _ _ _ _ fun a _ b _ => ?_).symm
  exact Iff.rfl

/-! ## Equal values have one text -/

/-- Lists of members that differ in their order only are sorted to the same list. -/
theorem encodeMap_eq_of_perm {xs ys : List (String × String)} (h : xs.Perm ys)
    (hkeys : (xs.map Prod.fst).Nodup) : encodeMap xs = encodeMap ys := by
  have : Std.Total fun a b : String × String => a.1 ≤ b.1 := ⟨fun a b => le_total a.1 b.1⟩
  have : IsTrans (String × String) fun a b => a.1 ≤ b.1 := ⟨fun _ _ _ => le_trans⟩
  have hxs := List.perm_insertionSort (fun a b : String × String => a.1 ≤ b.1) xs
  have hys := List.perm_insertionSort (fun a b : String × String => a.1 ≤ b.1) ys
  refine congrArg encodeObject (List.Perm.eq_of_pairwise ?_
    (List.pairwise_insertionSort _ _) (List.pairwise_insertionSort _ _)
    (hxs.trans (h.trans hys.symm)))
  intro a b ha hb hab hba
  have hb' := h.mem_iff.mpr (hys.mem_iff.mp hb)
  exact List.inj_on_of_nodup_map hkeys (hxs.mem_iff.mp ha) hb' (le_antisymm hab hba)

theorem map_eq_of_forall₂ {α β γ : Type*} {R : α → β → Prop} {f : α → γ} {g : β → γ} {xs : List α}
    {ys : List β} (h : List.Forall₂ R xs ys) (hfg : ∀ x ∈ xs, ∀ y ∈ ys, R x y → f x = g y) :
    xs.map f = ys.map g := by
  induction h with
  | nil => rfl
  | @cons x y xs ys hxy _ ih =>
    rw [List.map_cons, List.map_cons, hfg x List.mem_cons_self y List.mem_cons_self hxy,
      ih fun a ha b hb => hfg a (List.mem_cons_of_mem _ ha) b (List.mem_cons_of_mem _ hb)]

/-- The members and their values, apart. -/
theorem canonicalMembers_eq_zip (members : List (String × Value)) :
    canonicalMembers members =
      (members.map Prod.fst).zip ((members.map Prod.snd).map canonicalJson) := by
  rw [canonicalMembers_eq, List.map_map, List.zip_map']
  rfl

theorem canonicalJson_eq_of_same {a b : Value} (h : a.Same b) (ha : IsSerde a) :
    canonicalJson a = canonicalJson b := by
  induction a using Value.parts_induction generalizing b with
  | null => cases h; rfl
  | bool x => cases h; rfl
  | number n =>
    cases h with
    | number htext => exact htext
  | string s => cases h; rfl
  | array items ih =>
    cases h with
    | array hitems =>
      cases ha with
      | array hserde =>
        rw [canonicalJson, canonicalJson, canonicalItems_eq, canonicalItems_eq,
          map_eq_of_forall₂ hitems fun v hv w _ hsame => ih v hv hsame (hserde v hv)]
  | object members ih =>
    cases h with
    | @object _ ms' ns ns' hms hns hkeys hvalues =>
      cases ha with
      | object hnodup hserde =>
        have htexts : (ms'.map Prod.snd).map canonicalJson =
            (ns'.map Prod.snd).map canonicalJson := by
          refine map_eq_of_forall₂ hvalues fun v hv w _ hsame => ?_
          obtain ⟨m, hm, rfl⟩ := List.mem_map.mp hv
          have hm := hms.mem_iff.mpr hm
          exact ih m hm hsame (hserde m hm)
        have hsame : canonicalMembers ms' = canonicalMembers ns' := by
          rw [canonicalMembers_eq_zip, canonicalMembers_eq_zip, hkeys, htexts]
        have hperm : ∀ {xs ys : List (String × Value)}, xs.Perm ys →
            (canonicalMembers xs).Perm (canonicalMembers ys) := by
          intro xs ys hxy
          rw [canonicalMembers_eq, canonicalMembers_eq]
          exact hxy.map _
        rw [canonicalJson, canonicalJson]
        refine encodeMap_eq_of_perm ((hperm hms).trans ?_) ?_
        · rw [hsame]
          exact (hperm hns).symm
        · rwa [canonicalMembers_eq, List.map_map]

/-! ## One text comes from equal values -/

def jsonText (v : Value) : List Char := (canonicalJson v).toList

/-- What may follow a value. -/
def FollowsValue (c : Char) : Prop := c = ',' ∨ c = ']' ∨ c = '\x7d'

theorem isDigitOrMinus_of_mem_encodeInt {n : Int} {c : Char} (hc : c ∈ (encodeInt n).toList) :
    (c.isDigit || c == '-') = true := by
  have hdigits : ∀ m : Nat, c ∈ m.repr.toList → c.isDigit = true := fun m hm => by
    rw [Nat.toList_repr] at hm
    exact Nat.isDigit_of_mem_toDigits (by decide) (by decide) hm
  rw [encodeInt, Int.toString_eq_repr, Int.repr_eq_if] at hc
  split at hc
  · rw [hdigits _ hc, Bool.true_or]
  · rw [String.toList_append, List.mem_append] at hc
    rcases hc with hc | hc
    · rw [List.mem_singleton.mp hc]
      decide
    · rw [hdigits _ hc, Bool.true_or]

/-- An integer is written in digits. -/
theorem isNumeral_encodeInt (n : Int) : IsNumeral (encodeInt n) := by
  refine ⟨?_, fun c hc => ?_, ?_⟩
  · rw [encodeInt, Int.toString_eq_repr, Int.repr_eq_if]
    split
    · exact Nat.repr_ne_empty
    · intro hempty
      have hlength := congrArg String.length hempty
      rw [String.length_append] at hlength
      have hminus : ("-" : String).length = 1 := rfl
      have hzero : ("" : String).length = 0 := rfl
      omega
  · by_contra hpunctuation
    have hlisted : c ∈ ['\x7b', '\x7d', '[', ']', ':', ',', '"'] :=
      of_decide_eq_true (Bool.not_eq_false _ ▸ hpunctuation)
    have hnone : (['\x7b', '\x7d', '[', ']', ':', ',', '"'].all fun d =>
        !(d.isDigit || d == '-')) = true := by decide
    simpa using (List.all_eq_true.mp hnone c hlisted).symm.trans
      (congrArg not (isDigitOrMinus_of_mem_encodeInt hc))
  · intro hword
    have hletter : (["null", "true", "false"].all fun word =>
        !word.toList.all fun d => d.isDigit || d == '-') = true := by decide
    have hall : ((encodeInt n).toList.all fun d => d.isDigit || d == '-') = true :=
      List.all_eq_true.mpr fun c hc => isDigitOrMinus_of_mem_encodeInt hc
    simpa [hall] using List.all_eq_true.mp hletter _ hword

theorem isNumeral_text {n : Number} (h : IsSerde (.number n)) : IsNumeral n.text := by
  cases h with
  | int n => exact isNumeral_encodeInt n
  | other hnumeral _ => exact hnumeral

/-- The values that are written without punctuation. -/
def IsAtom : Value → Prop
  | .null | .bool _ | .number _ => True
  | .string _ | .array _ | .object _ => False

section Atoms

variable {a b : Value} {r s : List Char}

theorem isJsonPunctuation_of_isAtom (ha : IsAtom a) (hserde : IsSerde a) :
    jsonText a ≠ [] ∧ ∀ c ∈ jsonText a, isJsonPunctuation c = false := by
  have hwords : ∀ cs : List Char, (cs.all fun c => !isJsonPunctuation c) = true →
      ∀ c ∈ cs, isJsonPunctuation c = false := by
    intro cs hall c hc
    simpa using List.all_eq_true.mp hall c hc
  cases a with
  | null => exact ⟨by decide, hwords _ (by decide)⟩
  | bool x => cases x <;> exact ⟨by decide, hwords _ (by decide)⟩
  | number n =>
    obtain ⟨hne, hchars, -⟩ := isNumeral_text hserde
    exact ⟨fun hnil => hne (String.toList_eq_nil_iff.mp hnil), hchars⟩
  | string _ | array _ | object _ => exact ha.elim

/-- An atom does not begin as a string, an array or an object does. -/
theorem isAtom_ne_cons (hserde : IsSerde a) (ha : IsAtom a) {c : Char}
    (hc : isJsonPunctuation c = true) : jsonText a ++ r ≠ c :: s := by
  intro heq
  obtain ⟨hne, hchars⟩ := isJsonPunctuation_of_isAtom ha hserde
  cases htext : jsonText a with
  | nil => exact hne htext
  | cons d ds =>
    rw [htext, List.cons_append] at heq
    obtain ⟨rfl, -⟩ := List.cons.inj heq
    have hd := hchars d (by rw [htext]; exact List.mem_cons_self)
    rw [hc] at hd
    cases hd

/-- Atoms with one text are the same. -/
theorem same_of_isAtom (ha : IsAtom a) (hb : IsAtom b) (hserde : IsSerde a) (hserde' : IsSerde b)
    (h : canonicalJson a = canonicalJson b) : a.Same b := by
  have hwords : ∀ x, encodeBool x ∈ ["null", "true", "false"] := by decide
  cases a with
  | null =>
    cases b with
    | null => exact .null
    | bool x => exact absurd h (by cases x <;> decide)
    | number n =>
      have hnull : "null" = n.text := h
      exact absurd (hnull ▸ List.mem_cons_self) (isNumeral_text hserde').2.2
    | string _ | array _ | object _ => exact hb.elim
  | bool x =>
    cases b with
    | null => exact absurd h (by cases x <;> decide)
    | bool y =>
      have hinj : ∀ x y, encodeBool x = encodeBool y → x = y := by decide
      rw [hinj x y h]
      exact .bool y
    | number n =>
      have hbool : encodeBool x = n.text := h
      exact absurd (hbool ▸ hwords x) (isNumeral_text hserde').2.2
    | string _ | array _ | object _ => exact hb.elim
  | number m =>
    cases b with
    | null =>
      have hnull : "null" = m.text := h.symm
      exact absurd (hnull ▸ List.mem_cons_self) (isNumeral_text hserde).2.2
    | bool y =>
      have hbool : encodeBool y = m.text := h.symm
      exact absurd (hbool ▸ hwords y) (isNumeral_text hserde).2.2
    | number n => exact .number h
    | string _ | array _ | object _ => exact hb.elim
  | string _ | array _ | object _ => exact ha.elim

/-- Two atoms, each up to what follows it. -/
theorem aligned_of_isAtom (ha : IsAtom a) (hb : IsAtom b) (hserde : IsSerde a)
    (hserde' : IsSerde b) : Aligned FollowsValue jsonText Value.Same a b := by
  have hmarks : ∀ c, isJsonPunctuation c = false → ¬FollowsValue c := by
    rintro c hc (rfl | rfl | rfl)
    · exact absurd hc (by decide)
    · exact absurd hc (by decide)
    · exact absurd hc (by decide)
  intro r s hr hs h
  obtain ⟨htext, hrest⟩ := append_inj_of_stops
    (fun c hc => hmarks c ((isJsonPunctuation_of_isAtom ha hserde).2 c hc))
    (fun c hc => hmarks c ((isJsonPunctuation_of_isAtom hb hserde').2 c hc)) hr hs h
  exact ⟨same_of_isAtom ha hb hserde hserde' (String.toList_injective htext), hrest⟩

end Atoms

/-! ## Strings, arrays and objects -/

theorem IsSerde.of_array {items : List Value} (h : IsSerde (.array items)) :
    ∀ v ∈ items, IsSerde v := by
  cases h with
  | array hitems => exact hitems

theorem IsSerde.of_object {members : List (String × Value)} (h : IsSerde (.object members)) :
    (members.map Prod.fst).Nodup ∧ ∀ m ∈ members, IsSerde m.2 := by
  cases h with
  | object hkeys hmembers => exact ⟨hkeys, hmembers⟩

theorem jsonText_string (s : String) (r : List Char) :
    jsonText (.string s) ++ r = '"' :: (s.toList.flatMap escape ++ '"' :: r) :=
  encodeString_toList s r

theorem jsonText_array (items : List Value) (r : List Char) :
    jsonText (.array items) ++ r = '[' :: separated ',' ']' jsonText items r := by
  rw [jsonText, canonicalJson, canonicalItems_eq, encodeArray_toList, separated_map]
  rfl

/-- A member as it is written. -/
def jsonMember (m : String × Value) : List Char := memberText (m.1, canonicalJson m.2)

theorem jsonText_object (members : List (String × Value)) (r : List Char) :
    jsonText (.object members) ++ r =
      '\x7b' :: separated ',' '\x7d' jsonMember (sortedMembers members) r := by
  rw [jsonText, canonicalJson_object, encodeObject_toList, separated_map]
  rfl

theorem jsonMember_append (m : String × Value) (r : List Char) :
    jsonMember m ++ r = (encodeString m.1).toList ++ ':' :: (jsonText m.2 ++ r) := by
  rw [jsonMember, memberText, List.append_assoc]
  rfl

/-- No value begins with a mark that follows values. -/
theorem head?_jsonText {v : Value} (hv : IsSerde v) {c : Char} (hc : FollowsValue c)
    (r : List Char) : (jsonText v ++ r).head? ≠ some c := by
  have hpunctuation : isJsonPunctuation c = true := by
    rcases hc with rfl | rfl | rfl <;> decide
  have hopen : c ≠ '"' ∧ c ≠ '[' ∧ c ≠ '\x7b' := by
    rcases hc with rfl | rfl | rfl <;> decide
  intro hhead
  obtain ⟨s, hs⟩ := List.head?_eq_some_iff.mp hhead
  have hatom : ¬IsAtom v := fun hatom => isAtom_ne_cons hv hatom hpunctuation hs
  cases v with
  | null | bool _ | number _ => exact hatom trivial
  | string t =>
    rw [jsonText_string] at hs
    exact hopen.1 (List.cons.inj hs).1.symm
  | array items =>
    rw [jsonText_array] at hs
    exact hopen.2.1 (List.cons.inj hs).1.symm
  | object members =>
    rw [jsonText_object] at hs
    exact hopen.2.2 (List.cons.inj hs).1.symm

theorem aligned_of_isAtom_left {a b : Value} (hatom : IsAtom a) (ha : IsSerde a)
    (hb : IsSerde b) : Aligned FollowsValue jsonText Value.Same a b := by
  by_cases hatom' : IsAtom b
  · exact aligned_of_isAtom hatom hatom' ha hb
  · intro r s hr hs h
    cases b with
    | null | bool _ | number _ => exact absurd trivial hatom'
    | string t =>
      rw [jsonText_string] at h
      exact absurd h (isAtom_ne_cons ha hatom rfl)
    | array items =>
      rw [jsonText_array] at h
      exact absurd h (isAtom_ne_cons ha hatom rfl)
    | object members =>
      rw [jsonText_object] at h
      exact absurd h (isAtom_ne_cons ha hatom rfl)

/-- A member ends where its value does. -/
theorem aligned_member {m n : String × Value}
    (hvalue : Aligned FollowsValue jsonText Value.Same m.2 n.2) :
    Aligned FollowsValue jsonMember (fun m n => m.1 = n.1 ∧ m.2.Same n.2) m n := by
  intro r s hr hs h
  rw [jsonMember_append, jsonMember_append] at h
  obtain ⟨hkey, hcolon⟩ := encodeString_inj h
  obtain ⟨hsame, hrest⟩ := hvalue r s hr hs (List.cons.inj hcolon).2
  exact ⟨⟨hkey, hsame⟩, hrest⟩

theorem head?_jsonMember (m : String × Value) {c : Char} (hc : FollowsValue c) (r : List Char) :
    (jsonMember m ++ r).head? ≠ some c := by
  rw [jsonMember_append, encodeString_toList, List.head?_cons]
  rcases hc with rfl | rfl | rfl <;> decide

/-- Written members that agree one by one. -/
theorem same_object_of_forall₂ {ms ns : List (String × Value)}
    (h : List.Forall₂ (fun m n => m.1 = n.1 ∧ m.2.Same n.2) (sortedMembers ms)
      (sortedMembers ns)) : Value.Same (.object ms) (.object ns) := by
  refine .object (sortedMembers_perm ms).symm (sortedMembers_perm ns).symm
    (map_eq_of_forall₂ h fun _ _ _ _ hmn => hmn.1) ?_
  rw [List.forall₂_map_left_iff, List.forall₂_map_right_iff]
  exact h.imp fun _ _ hmn => hmn.2

/-- Any two values, each up to what follows it.  The induction is on the first one; the other is
of the same kind, since the first characters of the kinds differ. -/
theorem aligned_same {a b : Value} (ha : IsSerde a) (hb : IsSerde b) :
    Aligned FollowsValue jsonText Value.Same a b := by
  induction a using Value.parts_induction generalizing b with
  | null => exact aligned_of_isAtom_left trivial ha hb
  | bool x => exact aligned_of_isAtom_left trivial ha hb
  | number n => exact aligned_of_isAtom_left trivial ha hb
  | string s =>
    intro r r' hr hr' h
    cases b with
    | null | bool _ | number _ =>
      rw [jsonText_string] at h
      exact absurd h.symm (isAtom_ne_cons hb trivial rfl)
    | string t =>
      obtain ⟨rfl, hrest⟩ := encodeString_inj h
      exact ⟨.string s, hrest⟩
    | array _ =>
      rw [jsonText_string, jsonText_array] at h
      exact absurd (List.cons.inj h).1 (by decide)
    | object _ =>
      rw [jsonText_string, jsonText_object] at h
      exact absurd (List.cons.inj h).1 (by decide)
  | array items ih =>
    intro r r' hr hr' h
    rw [jsonText_array] at h
    cases b with
    | null | bool _ | number _ => exact absurd h.symm (isAtom_ne_cons hb trivial rfl)
    | string _ =>
      rw [jsonText_string] at h
      exact absurd (List.cons.inj h).1 (by decide)
    | array items' =>
      rw [jsonText_array] at h
      have hserde := ha.of_array
      have hserde' := hb.of_array
      obtain ⟨hitems, hrest⟩ := separated_inj (by decide) (.inl rfl) (.inr (.inl rfl))
        (fun v hv w hw => ih v hv (hserde v hv) (hserde' w hw))
        (fun v hv => head?_jsonText
          ((List.mem_append.mp hv).elim (hserde v) (hserde' v)) (.inr (.inl rfl)))
        (List.cons.inj h).2
      exact ⟨.array hitems, hrest⟩
    | object _ =>
      rw [jsonText_object] at h
      exact absurd (List.cons.inj h).1 (by decide)
  | object members ih =>
    intro r r' hr hr' h
    rw [jsonText_object] at h
    cases b with
    | null | bool _ | number _ => exact absurd h.symm (isAtom_ne_cons hb trivial rfl)
    | string _ =>
      rw [jsonText_string] at h
      exact absurd (List.cons.inj h).1 (by decide)
    | array _ =>
      rw [jsonText_array] at h
      exact absurd (List.cons.inj h).1 (by decide)
    | object members' =>
      rw [jsonText_object] at h
      have hitem : ∀ m ∈ sortedMembers members, ∀ n ∈ sortedMembers members',
          Aligned FollowsValue jsonMember (fun m n => m.1 = n.1 ∧ m.2.Same n.2) m n := by
        intro m hm n hn
        have hm := (sortedMembers_perm members).mem_iff.mp hm
        have hn := (sortedMembers_perm members').mem_iff.mp hn
        exact aligned_member (ih m hm (ha.of_object.2 m hm) (hb.of_object.2 n hn))
      obtain ⟨hmembers, hrest⟩ := separated_inj (by decide) (.inl rfl) (.inr (.inr rfl)) hitem
        (fun m _ => head?_jsonMember m (.inr (.inr rfl))) (List.cons.inj h).2
      exact ⟨same_object_of_forall₂ hmembers, hrest⟩

theorem canonicalJson_eq_iff {a b : Value} (ha : IsSerde a) (hb : IsSerde b) :
    canonicalJson a = canonicalJson b ↔ a.Same b := by
  refine ⟨fun h => ?_, fun h => canonicalJson_eq_of_same h ha⟩
  exact (aligned_same ha hb [] [] trivial trivial (congrArg (·.toList ++ []) h)).1

/-! ## What a manifest says of its assets -/

/-- What `load` reads of an asset. -/
structure AssetIdentity where
  path : Option String
  bytes : Option Nat
  sha256 : Option String
deriving DecidableEq

def assetIdentity (asset : Value) : AssetIdentity where
  path := (asset.get "path").bind Value.asStr
  bytes := (asset.get "bytes").bind Value.asU64
  sha256 := (asset.get "sha256").bind Value.asStr

/-- The asset inventory of a manifest. -/
def manifestAssets (manifest : Value) : Option (List AssetIdentity) :=
  ((manifest.get "assets").bind Value.asArray).map (·.map assetIdentity)

section Reading

variable {a b : Value}

/-- With unique names a member is found just if it is there. -/
theorem get_eq_some_iff {members : List (String × Value)}
    (hkeys : (members.map Prod.fst).Nodup) {key : String} {v : Value} :
    Value.get (.object members) key = some v ↔ (key, v) ∈ members := by
  rw [Value.get, Option.map_eq_some_iff]
  constructor
  · rintro ⟨m, hfind, rfl⟩
    have hkey : m.1 = key := by simpa using List.find?_some hfind
    subst hkey
    exact List.mem_reverse.mp (List.mem_of_find?_eq_some hfind)
  · intro hmem
    have hfound : (members.reverse.find? fun m => m.1 = key).isSome := by
      rw [List.find?_isSome]
      exact ⟨(key, v), List.mem_reverse.mpr hmem, decide_eq_true rfl⟩
    obtain ⟨m, hfind⟩ := Option.isSome_iff_exists.mp hfound
    have hkey : m.1 = key := by simpa using List.find?_some hfind
    have hm := List.mem_reverse.mp (List.mem_of_find?_eq_some hfind)
    exact ⟨m, hfind, congrArg Prod.snd (List.inj_on_of_nodup_map hkeys hm hmem hkey)⟩

/-- A value that is in one list has a partner in the other. -/
theorem exists_of_forall₂ {ms ns : List (String × Value)}
    (hkeys : ms.map Prod.fst = ns.map Prod.fst)
    (hvalues : List.Forall₂ Value.Same (ms.map Prod.snd) (ns.map Prod.snd)) {key : String}
    {v : Value} (hmem : (key, v) ∈ ms) : ∃ w, (key, w) ∈ ns ∧ v.Same w := by
  induction ms generalizing ns with
  | nil => cases hmem
  | cons m ms ih =>
    cases ns with
    | nil => cases hkeys
    | cons n ns =>
      obtain ⟨hkey, hkeys⟩ := List.cons.inj hkeys
      obtain ⟨hsame, hvalues⟩ := List.forall₂_cons.mp hvalues
      rcases List.mem_cons.mp hmem with rfl | hmem
      · obtain rfl : key = n.1 := hkey
        exact ⟨n.2, List.mem_cons_self, hsame⟩
      · obtain ⟨w, hw, hvw⟩ := ih hkeys hvalues hmem
        exact ⟨w, List.mem_cons_of_mem _ hw, hvw⟩

/-- What depends on a member up to the order inside it does not depend on the order outside. -/
theorem bind_get_eq_of_same {α : Type*} {f : Value → Option α}
    (hf : ∀ v w, IsSerde v → IsSerde w → v.Same w → f v = f w) (h : a.Same b) (ha : IsSerde a)
    (hb : IsSerde b) (key : String) : (a.get key).bind f = (b.get key).bind f := by
  cases h with
  | null | bool _ | number _ | string _ | array _ => rfl
  | @object ms ms' ns ns' hms hns hkeys hvalues =>
    obtain ⟨hunique, hserde⟩ := ha.of_object
    obtain ⟨hunique', hserde'⟩ := hb.of_object
    cases hget : Value.get (.object ms) key with
    | some v =>
      have hv := (get_eq_some_iff hunique).mp hget
      obtain ⟨w, hw, hvw⟩ := exists_of_forall₂ hkeys hvalues (hms.mem_iff.mp hv)
      have hw := hns.mem_iff.mpr hw
      rw [(get_eq_some_iff hunique').mpr hw]
      exact hf v w (hserde _ hv) (hserde' _ hw) hvw
    | none =>
      cases hget' : Value.get (.object ns) key with
      | none => rfl
      | some w =>
        have hw := hns.mem_iff.mp ((get_eq_some_iff hunique').mp hget')
        have hkey : key ∈ ms'.map Prod.fst := hkeys ▸ List.mem_map_of_mem hw
        obtain ⟨⟨k, v⟩, hv, rfl⟩ := List.mem_map.mp hkey
        have hfound := (get_eq_some_iff hunique).mpr (hms.mem_iff.mpr hv)
        rw [hget] at hfound
        cases hfound

theorem asStr_eq_of_same (h : a.Same b) : a.asStr = b.asStr := by
  cases h <;> rfl

/-- Integers with one text are equal, and no other number has the text of an integer. -/
theorem asU64_eq_of_same (h : a.Same b) (ha : IsSerde a) (hb : IsSerde b) :
    a.asU64 = b.asU64 := by
  cases h with
  | null | bool _ | string _ | array _ | object _ _ _ _ => rfl
  | number htext =>
    cases ha with
    | int n =>
      cases hb with
      | int m => rw [Int.repr_inj.mp htext]
      | other _ hne => exact absurd htext.symm (hne n)
    | other _ hne =>
      cases hb with
      | int m => exact absurd htext (hne m)
      | other _ _ => rfl

theorem assetIdentity_eq_of_same (h : a.Same b) (ha : IsSerde a) (hb : IsSerde b) :
    assetIdentity a = assetIdentity b := by
  have hstr := fun key => bind_get_eq_of_same (fun _ _ _ _ => asStr_eq_of_same) h ha hb key
  have hbytes := bind_get_eq_of_same (fun _ _ hv hw hvw => asU64_eq_of_same hvw hv hw) h ha hb
    "bytes"
  rw [assetIdentity, assetIdentity, hstr, hstr, hbytes]

theorem manifestAssets_eq_of_same (h : a.Same b) (ha : IsSerde a) (hb : IsSerde b) :
    manifestAssets a = manifestAssets b := by
  rw [manifestAssets, manifestAssets, Option.map_bind, Option.map_bind]
  refine bind_get_eq_of_same (fun v w hv hw hvw => ?_) h ha hb "assets"
  cases hvw with
  | null | bool _ | number _ | string _ | object _ _ _ _ => rfl
  | array hitems =>
    exact congrArg some (map_eq_of_forall₂ hitems fun x hx y hy hxy =>
      assetIdentity_eq_of_same hxy (hv.of_array x hx) (hw.of_array y hy))

end Reading

/-! ## The digest of a manifest -/

/-- What is digested: the manifest without the digest. -/
def unsignedManifest (manifest : Value) : Value := manifest.remove "runtimeSha256"

theorem IsSerde.remove {v : Value} (hv : IsSerde v) (key : String) : IsSerde (v.remove key) := by
  cases v with
  | object members =>
    obtain ⟨hkeys, hserde⟩ := hv.of_object
    exact .object (hkeys.sublist (List.filter_sublist.map _)) fun m hm =>
      hserde m (List.mem_of_mem_filter hm)
  | null | bool _ | number _ | string _ | array _ => exact hv

theorem get_remove {v : Value} {removed key : String} (h : key ≠ removed) :
    (v.remove removed).get key = v.get key := by
  cases v with
  | object members =>
    rw [Value.remove, Value.get, Value.get, ← List.filter_reverse, List.find?_filter]
    refine congrArg (Option.map _) (congrArg (List.find? · _) (funext fun m => ?_))
    by_cases hkey : m.1 = key
    · simp [hkey, h]
    · simp [hkey]
  | null | bool _ | number _ | string _ | array _ => rfl

theorem manifestAssets_unsignedManifest (manifest : Value) :
    manifestAssets (unsignedManifest manifest) = manifestAssets manifest := by
  rw [manifestAssets, unsignedManifest, get_remove (by decide), manifestAssets]

/-- Two values have one canonical text just if they are equal up to the order of members; so
manifests with one digest input list the same assets. -/
theorem canonical_json_canonical (a b : SerdeValue) :
    (canonicalJson a.value = canonicalJson b.value ↔ a.value.Same b.value) ∧
      (canonicalJson a.value = canonicalJson b.value →
        manifestAssets a.value = manifestAssets b.value) ∧
      (canonicalJson (unsignedManifest a.value) = canonicalJson (unsignedManifest b.value) →
        manifestAssets a.value = manifestAssets b.value) := by
  refine ⟨canonicalJson_eq_iff a.serde b.serde, fun h => ?_, fun h => ?_⟩
  · exact manifestAssets_eq_of_same ((canonicalJson_eq_iff a.serde b.serde).mp h) a.serde b.serde
  · have ha := a.serde.remove "runtimeSha256"
    have hb := b.serde.remove "runtimeSha256"
    have hassets := manifestAssets_eq_of_same ((canonicalJson_eq_iff ha hb).mp h) ha hb
    rw [← manifestAssets_unsignedManifest a.value, ← manifestAssets_unsignedManifest b.value]
    exact hassets

end Blackglass
