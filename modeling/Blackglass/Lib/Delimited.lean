import Mathlib.Data.List.Forall2
import Mathlib.Tactic.Common

/-!
# Texts that can be read in one way

A text made of parts can be taken apart again if each part says where it ends: because of a mark
that is no part of it (`append_inj_of_stops`), or because of what it is made of.  A sequence of
such parts with separators between them and a closing mark at the end is again one of that kind
(`separated_inj`).  Everything is stated against an arbitrary rest that follows, so that parts can
be nested.
-/

namespace Delimited

variable {α β γ : Type*}

/-- The text is over, or goes on with a mark. -/
def Stops (mark : α → Prop) : List α → Prop
  | [] => True
  | c :: _ => mark c

/-- Two texts without marks, each up to the first mark. -/
theorem append_inj_of_stops {mark : α → Prop} {xs ys r s : List α} (hxs : ∀ c ∈ xs, ¬mark c)
    (hys : ∀ c ∈ ys, ¬mark c) (hr : Stops mark r) (hs : Stops mark s) (h : xs ++ r = ys ++ s) :
    xs = ys ∧ r = s := by
  induction xs generalizing ys with
  | nil =>
    cases ys with
    | nil => exact ⟨rfl, h⟩
    | cons y ys =>
      obtain rfl : r = y :: (ys ++ s) := h
      exact absurd hr (hys y List.mem_cons_self)
  | cons x xs ih =>
    cases ys with
    | nil =>
      obtain rfl : x :: (xs ++ r) = s := h
      exact absurd hs (hxs x List.mem_cons_self)
    | cons y ys =>
      obtain ⟨rfl, htail⟩ := List.cons.inj h
      obtain ⟨rfl, hrest⟩ := ih (fun c hc => hxs c (List.mem_cons_of_mem _ hc))
        (fun c hc => hys c (List.mem_cons_of_mem _ hc)) htail
      exact ⟨rfl, hrest⟩

theorem mem_of_mem_intercalate {mark c : α} {parts : List (List α)}
    (h : c ∈ [mark].intercalate parts) : c = mark ∨ ∃ part ∈ parts, c ∈ part := by
  induction parts with
  | nil => simp at h
  | cons part parts ih =>
    cases parts with
    | nil => exact .inr ⟨part, List.mem_cons_self, by simpa using h⟩
    | cons next parts =>
      rw [List.intercalate_cons_cons, List.mem_append, List.mem_append] at h
      rcases h with (hpart | hmark) | hrest
      · exact .inr ⟨part, List.mem_cons_self, hpart⟩
      · exact .inl (List.mem_singleton.mp hmark)
      · rcases ih hrest with hmark | ⟨q, hq, hc⟩
        · exact .inl hmark
        · exact .inr ⟨q, List.mem_cons_of_mem _ hq, hc⟩

/-! ## The first and the last mark -/

section SplitOnce

variable [DecidableEq α] {mark : α}

/-- The text before the first mark and the text after it. -/
def splitOnce (mark : α) : List α → Option (List α × List α)
  | [] => none
  | c :: rest =>
    if c = mark then some ([], rest)
    else (splitOnce mark rest).map fun parts => (c :: parts.1, parts.2)

/-- The text before the last mark and the text after it. -/
def rsplitOnce (mark : α) (xs : List α) : Option (List α × List α) :=
  (splitOnce mark xs.reverse).map fun parts => (parts.2.reverse, parts.1.reverse)

theorem splitOnce_eq_some_iff {xs ys r : List α} :
    splitOnce mark xs = some (ys, r) ↔ xs = ys ++ mark :: r ∧ mark ∉ ys := by
  induction xs generalizing ys with
  | nil => simp [splitOnce]
  | cons c rest ih =>
    rw [splitOnce]
    by_cases hc : c = mark
    · subst c
      rw [if_pos rfl]
      cases ys with
      | nil => simp [eq_comm]
      | cons y ys =>
        simp only [Option.some.injEq, Prod.mk.injEq, reduceCtorEq, false_and, false_iff]
        rintro ⟨h, hmark⟩
        obtain ⟨rfl, -⟩ := List.cons.inj h
        exact hmark List.mem_cons_self
    · rw [if_neg hc]
      cases ys with
      | nil => simp [hc]
      | cons y ys =>
        constructor
        · intro h
          obtain ⟨⟨zs, s⟩, hzs, heq⟩ := Option.map_eq_some_iff.mp h
          obtain ⟨⟨rfl, rfl⟩, rfl⟩ : (c = y ∧ zs = ys) ∧ s = r := by simpa using heq
          obtain ⟨rfl, hmark⟩ := ih.mp hzs
          exact ⟨rfl, List.not_mem_cons_of_ne_of_not_mem (Ne.symm hc) hmark⟩
        · rintro ⟨h, hmark⟩
          obtain ⟨rfl, htail⟩ := List.cons.inj h
          rw [ih.mpr ⟨htail, fun hy => hmark (List.mem_cons_of_mem _ hy)⟩]
          rfl

theorem splitOnce_eq_none_iff {xs : List α} : splitOnce mark xs = none ↔ mark ∉ xs := by
  induction xs with
  | nil => simp [splitOnce]
  | cons c rest ih =>
    rw [splitOnce]
    by_cases hc : c = mark
    · simp [hc]
    · rw [if_neg hc, Option.map_eq_none_iff, ih, List.mem_cons, not_or]
      exact ⟨fun h => ⟨fun h' => hc h'.symm, h⟩, fun h => h.2⟩

theorem rsplitOnce_eq_some_iff {xs ys r : List α} :
    rsplitOnce mark xs = some (ys, r) ↔ xs = ys ++ mark :: r ∧ mark ∉ r := by
  constructor
  · intro h
    obtain ⟨⟨before, after⟩, hsplit, heq⟩ := Option.map_eq_some_iff.mp h
    obtain ⟨rfl, rfl⟩ : after.reverse = ys ∧ before.reverse = r := by simpa using heq
    obtain ⟨hxs, hmark⟩ := splitOnce_eq_some_iff.mp hsplit
    refine ⟨?_, by simpa using hmark⟩
    rw [← List.reverse_reverse xs, hxs]
    simp
  · rintro ⟨rfl, hmark⟩
    have hsplit : splitOnce mark (ys ++ mark :: r).reverse = some (r.reverse, ys.reverse) :=
      splitOnce_eq_some_iff.mpr ⟨by simp, by simpa using hmark⟩
    rw [rsplitOnce, hsplit]
    simp

theorem rsplitOnce_eq_none_iff {xs : List α} : rsplitOnce mark xs = none ↔ mark ∉ xs := by
  rw [rsplitOnce, Option.map_eq_none_iff, splitOnce_eq_none_iff, List.mem_reverse]

end SplitOnce

section Sequence

variable (sep close : α) (enc : β → List α)

/-- Further items, each after a separator, then the closing mark and the rest. -/
def further : List β → List α → List α
  | [], r => close :: r
  | x :: xs, r => sep :: (enc x ++ further xs r)

/-- Items with separators between them, then the closing mark and the rest. -/
def separated : List β → List α → List α
  | [], r => close :: r
  | x :: xs, r => enc x ++ further sep close enc xs r

theorem further_map (f : γ → β) (xs : List γ) (r : List α) :
    further sep close enc (xs.map f) r = further sep close (fun x => enc (f x)) xs r := by
  induction xs with
  | nil => rfl
  | cons x xs ih => rw [List.map_cons, further, further, ih]

theorem separated_map (f : γ → β) (xs : List γ) (r : List α) :
    separated sep close enc (xs.map f) r = separated sep close (fun x => enc (f x)) xs r := by
  cases xs with
  | nil => rfl
  | cons x xs => rw [List.map_cons, separated, separated, further_map]

variable {sep close enc} {mark : α → Prop} {R : β → β → Prop}

/-- One part ends where the other does, if marks follow. -/
def Aligned (mark : α → Prop) (enc : β → List α) (R : β → β → Prop) (x y : β) : Prop :=
  ∀ r s, Stops mark r → Stops mark s → enc x ++ r = enc y ++ s → R x y ∧ r = s

theorem stops_further (hsep : mark sep) (hclose : mark close) (xs : List β) (r : List α) :
    Stops mark (further sep close enc xs r) := by
  cases xs with
  | nil => exact hclose
  | cons x xs => exact hsep

theorem further_inj (hne : sep ≠ close) (hsep : mark sep) (hclose : mark close) {xs ys : List β}
    {r s : List α} (hitem : ∀ x ∈ xs, ∀ y ∈ ys, Aligned mark enc R x y)
    (h : further sep close enc xs r = further sep close enc ys s) :
    List.Forall₂ R xs ys ∧ r = s := by
  induction xs generalizing ys with
  | nil =>
    cases ys with
    | nil => exact ⟨.nil, (List.cons.inj h).2⟩
    | cons y ys => exact absurd (List.cons.inj h).1.symm hne
  | cons x xs ih =>
    cases ys with
    | nil => exact absurd (List.cons.inj h).1 hne
    | cons y ys =>
      obtain ⟨hxy, hrest⟩ := hitem x List.mem_cons_self y List.mem_cons_self _ _
        (stops_further hsep hclose xs r) (stops_further hsep hclose ys s) (List.cons.inj h).2
      obtain ⟨hxs, hr⟩ := ih (fun a ha b hb =>
        hitem a (List.mem_cons_of_mem _ ha) b (List.mem_cons_of_mem _ hb)) hrest
      exact ⟨.cons hxy hxs, hr⟩

/-- Two sequences are read in one way if their items are and none begins with the closing
mark. -/
theorem separated_inj (hne : sep ≠ close) (hsep : mark sep) (hclose : mark close) {xs ys : List β}
    {r s : List α} (hitem : ∀ x ∈ xs, ∀ y ∈ ys, Aligned mark enc R x y)
    (hhead : ∀ x ∈ xs ++ ys, ∀ r, (enc x ++ r).head? ≠ some close)
    (h : separated sep close enc xs r = separated sep close enc ys s) :
    List.Forall₂ R xs ys ∧ r = s := by
  cases xs with
  | nil =>
    cases ys with
    | nil => exact ⟨.nil, (List.cons.inj h).2⟩
    | cons y ys =>
      have hy := hhead y List.mem_cons_self (further sep close enc ys s)
      rw [separated, separated] at h
      rw [← h] at hy
      exact absurd rfl hy
  | cons x xs =>
    cases ys with
    | nil =>
      have hx := hhead x List.mem_cons_self (further sep close enc xs r)
      rw [separated, separated] at h
      rw [h] at hx
      exact absurd rfl hx
    | cons y ys =>
      obtain ⟨hxy, hrest⟩ := hitem x List.mem_cons_self y List.mem_cons_self _ _
        (stops_further hsep hclose xs r) (stops_further hsep hclose ys s) h
      obtain ⟨hxs, hr⟩ := further_inj hne hsep hclose (fun a ha b hb =>
        hitem a (List.mem_cons_of_mem _ ha) b (List.mem_cons_of_mem _ hb)) hrest
      exact ⟨.cons hxy hxs, hr⟩

end Sequence

end Delimited
