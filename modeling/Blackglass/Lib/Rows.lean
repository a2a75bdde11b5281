import Mathlib.Data.List.Sort
import Mathlib.Data.List.Dedup
import Mathlib.Algebra.BigOperators.Group.List.Basic
import Mathlib.Algebra.Order.BigOperators.Group.List
import Mathlib.Tactic.Common
import Mathlib.Tactic.Linarith

/-!
# Tables as lists of rows

A table is a list of rows, and the queries of a relational program become list
functions: `WHERE` is `filter`, `COALESCE(MAX(..),0)` is `maxOr0`, `SUM` is
`sumOf`, `MAX(..) .. GROUP BY` is `groupMax`, and `ORDER BY .. LIMIT` a sort
followed by `take`.  This file gives these functions and the few facts the proofs
about them need; nothing in it mentions a particular schema.
-/

namespace Rows

variable {α : Type*} {κ : Type*}

/-! ## Aggregates -/

/-- `COALESCE(MAX(..),0)` of a column. -/
def maxOr0 (xs : List Int) : Int := xs.max?.getD 0

/-- Every entry of a column is at most its maximum. -/
theorem le_maxOr0 {xs : List Int} {x : Int} (h : x ∈ xs) : x ≤ maxOr0 xs := by
  unfold maxOr0
  cases hm : xs.max? with
  | none => simp_all
  | some m => exact (List.max?_eq_some_iff.mp hm).2 x h

/-- A bound of every entry that is not negative bounds the maximum. -/
theorem maxOr0_le {xs : List Int} {b : Int} (hb : 0 ≤ b) (h : ∀ x ∈ xs, x ≤ b) :
    maxOr0 xs ≤ b := by
  unfold maxOr0
  cases hm : xs.max? with
  | none => exact hb
  | some m => exact h m (List.max?_mem hm)

/-- `SUM(..)` of a column, `0` on no rows. -/
def sumOf (f : α → Int) (rows : List α) : Int := (rows.map f).sum

@[simp] theorem sumOf_nil (f : α → Int) : sumOf f [] = 0 := rfl

@[simp] theorem sumOf_cons (f : α → Int) (r : α) (rows : List α) :
    sumOf f (r :: rows) = f r + sumOf f rows := by simp [sumOf]

@[simp] theorem sumOf_append (f : α → Int) (xs ys : List α) :
    sumOf f (xs ++ ys) = sumOf f xs + sumOf f ys := by simp [sumOf]

/-- A sum splits along any predicate. -/
theorem sumOf_filter_add (f : α → Int) (p : α → Bool) (rows : List α) :
    sumOf f (rows.filter p) + sumOf f (rows.filter fun r => !p r) = sumOf f rows := by
  induction rows with
  | nil => rfl
  | cons r rows ih =>
    cases h : p r
    · simp only [List.filter_cons, h, Bool.not_false, if_true, sumOf_cons, Bool.false_eq_true,
        if_false]
      linarith
    · simp only [List.filter_cons, h, Bool.not_true, if_true, sumOf_cons, Bool.false_eq_true,
        if_false]
      linarith

/-- A sum of entries that are not negative is not negative. -/
theorem sumOf_nonneg {f : α → Int} {rows : List α} (h : ∀ r ∈ rows, 0 ≤ f r) :
    0 ≤ sumOf f rows := by
  induction rows with
  | nil => simp
  | cons r rows ih =>
    rw [sumOf_cons]
    have h₁ := h r List.mem_cons_self
    have h₂ := ih fun x hx => h x (List.mem_cons_of_mem _ hx)
    omega

/-- With entries that are not negative, fewer sum up to less. -/
theorem sumOf_le_of_sublist {f : α → Int} {xs ys : List α} (h : xs.Sublist ys)
    (hys : ∀ y ∈ ys, 0 ≤ f y) : sumOf f xs ≤ sumOf f ys := by
  induction h with
  | slnil => exact le_rfl
  | cons y _ ih =>
    have hy := hys y List.mem_cons_self
    have hle := ih fun z hz => hys z (List.mem_cons_of_mem _ hz)
    rw [sumOf_cons]
    omega
  | cons_cons y _ ih =>
    have hle := ih fun z hz => hys z (List.mem_cons_of_mem _ hz)
    rw [sumOf_cons, sumOf_cons]
    omega

theorem sumOf_add (f g : α → Int) (rows : List α) :
    sumOf (fun r => f r + g r) rows = sumOf f rows + sumOf g rows := by
  induction rows with
  | nil => rfl
  | cons r rows ih =>
    simp only [sumOf_cons, ih]
    omega

theorem sumOf_eq_zero {f : α → Int} {rows : List α} (h : ∀ r ∈ rows, f r = 0) :
    sumOf f rows = 0 := by
  induction rows with
  | nil => rfl
  | cons r rows ih =>
    rw [sumOf_cons, h r List.mem_cons_self, ih fun x hx => h x (List.mem_cons_of_mem _ hx)]
    rfl

/-- A sum in which only one entry counts. -/
theorem sumOf_single {k : κ} {keys : List κ} {f : κ → Int} (hkeys : keys.Nodup) (hk : k ∈ keys)
    (hother : ∀ k' ∈ keys, k' ≠ k → f k' = 0) : sumOf f keys = f k := by
  induction keys with
  | nil => cases hk
  | cons k' keys ih =>
    obtain ⟨hfresh, hkeys⟩ := List.nodup_cons.mp hkeys
    rw [sumOf_cons]
    rcases List.mem_cons.mp hk with rfl | hk
    · have hrest : sumOf f keys = 0 := sumOf_eq_zero fun x hx =>
        hother x (List.mem_cons_of_mem _ hx) fun heq => hfresh (heq ▸ hx)
      rw [hrest, add_zero]
    · have hne : k' ≠ k := fun heq => hfresh (heq ▸ hk)
      rw [hother k' List.mem_cons_self hne,
        ih hkeys hk fun x hx => hother x (List.mem_cons_of_mem _ hx), zero_add]

/-- When every row belongs to just one key, the sums of the keys add up to the whole. -/
theorem sumOf_keys {f : α → Int} {p : κ → α → Bool} {keys : List κ} {rows : List α}
    (hkeys : keys.Nodup) (hone : ∀ r ∈ rows, ∃ k ∈ keys, ∀ k' ∈ keys, p k' r = true ↔ k' = k) :
    sumOf (fun k => sumOf f (rows.filter (p k))) keys = sumOf f rows := by
  induction rows with
  | nil => exact sumOf_eq_zero fun _ _ => rfl
  | cons r rows ih =>
    have hsplit : (fun k => sumOf f ((r :: rows).filter (p k))) =
        fun k => (if p k r then f r else 0) + sumOf f (rows.filter (p k)) := by
      funext k
      cases hp : p k r <;> simp [hp]
    obtain ⟨k, hk, hiff⟩ := hone r List.mem_cons_self
    have hown : sumOf (fun k => if p k r then f r else 0) keys = f r := by
      rw [sumOf_single hkeys hk fun k' hk' hne => if_neg fun hp => hne ((hiff k' hk').mp hp),
        if_pos ((hiff k hk).mpr rfl)]
    rw [hsplit, sumOf_add, hown, ih fun x hx => hone x (List.mem_cons_of_mem _ hx), sumOf_cons]

/-! ## Keys -/

variable [DecidableEq κ]

/-- Looking a row up by its key finds it, when keys are unique. -/
theorem find_key_of_mem {key : α → κ} {rows : List α} {r : α} (hkey : (rows.map key).Nodup)
    (hr : r ∈ rows) : rows.find? (fun x => decide (key x = key r)) = some r := by
  cases hf : rows.find? fun x => decide (key x = key r) with
  | none => simpa using List.find?_eq_none.mp hf r hr
  | some x =>
    have hk : key x = key r := by simpa using List.find?_some hf
    rw [List.inj_on_of_nodup_map hkey (List.mem_of_find?_eq_some hf) hr hk]

/-- Unique keys let at most one row have a given one. -/
theorem countP_key_le_one {key : α → κ} {rows : List α} (hkey : (rows.map key).Nodup) (k : κ) :
    rows.countP (fun r => decide (key r = k)) ≤ 1 := by
  have hcount : rows.countP (fun r => decide (key r = k)) = (rows.map key).count k := by
    rw [List.count, List.countP_map]
    exact List.countP_congr fun r _ => by simp
  rw [hcount]
  exact List.nodup_iff_count_le_one.mp hkey k

/-- The rows with a given unique key are the one that a lookup finds. -/
theorem filter_key_eq_toList {key : α → κ} {rows : List α} (hkey : (rows.map key).Nodup) (k : κ) :
    rows.filter (fun r => decide (key r = k)) =
      (rows.find? fun r => decide (key r = k)).toList := by
  induction rows with
  | nil => rfl
  | cons r rows ih =>
    rw [List.map_cons, List.nodup_cons] at hkey
    by_cases hk : key r = k
    · have hrest : rows.filter (fun r => decide (key r = k)) = [] := by
        refine List.filter_eq_nil_iff.mpr fun s hs hks => hkey.1 ?_
        rw [hk, ← of_decide_eq_true hks]
        exact List.mem_map_of_mem hs
      simp [hk, hrest]
    · simp [hk, ih hkey.2]

/-- A lookup that at most one row can answer is known by the rows that answer it. -/
theorem find?_eq_of_unique {p p' : α → Bool} {rows rows' : List α}
    (hsame : ∀ x, x ∈ rows ∧ p x = true ↔ x ∈ rows' ∧ p' x = true)
    (hone : ∀ x ∈ rows', ∀ y ∈ rows', p' x = true → p' y = true → x = y) :
    rows.find? p = rows'.find? p' := by
  cases hfind : rows.find? p with
  | none =>
    refine (List.find?_eq_none.mpr fun y hy hp => ?_).symm
    obtain ⟨hy, hp⟩ := (hsame y).mpr ⟨hy, hp⟩
    exact List.find?_eq_none.mp hfind y hy hp
  | some x =>
    obtain ⟨hx, hp⟩ :=
      (hsame x).mp ⟨List.mem_of_find?_eq_some hfind, List.find?_some hfind⟩
    cases hfind' : rows'.find? p' with
    | none => exact absurd hp (List.find?_eq_none.mp hfind' x hx)
    | some y =>
      exact congrArg some (hone x hx y (List.mem_of_find?_eq_some hfind') hp
        (List.find?_some hfind'))

/-! ## Counting -/

/-- A count splits along two properties that exclude each other. -/
theorem countP_eq_add {p q r : α → Bool} {rows : List α}
    (h : ∀ x ∈ rows, p x = (q x || r x) ∧ (q x && r x) = false) :
    rows.countP p = rows.countP q + rows.countP r := by
  induction rows with
  | nil => rfl
  | cons x rows ih =>
    obtain ⟨hor, hand⟩ := h x List.mem_cons_self
    have ih := ih fun y hy => h y (List.mem_cons_of_mem _ hy)
    rw [List.countP_cons, List.countP_cons, List.countP_cons, ih, hor]
    cases hq : q x <;> cases hr : r x <;> simp_all <;> omega

/-! ## The row with the largest value -/

theorem exists_maxOn? (val : α → Int) {rows : List α} {r : α} (hr : r ∈ rows) :
    ∃ m, rows.maxOn? val = some m := ⟨_, List.maxOn?_eq_some_maxOn (List.ne_nil_of_mem hr)⟩

/-- No row has a larger value. -/
theorem le_of_maxOn? {val : α → Int} {rows : List α} {m r : α} (hm : rows.maxOn? val = some m)
    (hr : r ∈ rows) : val r ≤ val m := by
  have hmax := List.le_apply_maxOn_of_mem (f := val) hr
  rw [List.maxOn?_eq_some_maxOn (List.ne_nil_of_mem hr)] at hm
  rwa [Option.some.inj hm] at hmax

/-- With unique values the row with the largest one is the one that no row exceeds. -/
theorem maxOn?_eq_some_iff {val : α → Int} {rows : List α} {r : α}
    (hunique : ∀ x ∈ rows, ∀ y ∈ rows, val x = val y → x = y) :
    rows.maxOn? val = some r ↔ r ∈ rows ∧ ∀ x ∈ rows, val x ≤ val r := by
  constructor
  · intro hr
    exact ⟨List.maxOn?_mem hr, fun x hx => le_of_maxOn? hr hx⟩
  · rintro ⟨hr, hmax⟩
    obtain ⟨m, hm⟩ := exists_maxOn? val hr
    have hmem := List.maxOn?_mem hm
    have heq : m = r :=
      hunique m hmem r hr (Int.le_antisymm (hmax m hmem) (le_of_maxOn? hm hr))
    rw [hm, heq]

/-! ## Grouping -/

/-- `SELECT MAX(val) FROM rows GROUP BY key`: the maxima of the groups, in some
order. -/
def groupMax (key : α → κ) (val : α → Int) (rows : List α) : List Int :=
  (rows.map key).dedup.filterMap fun k =>
    ((rows.filter fun r => key r = k).map val).max?

/-- A value is a group maximum when some row has it and no row of the same group
has a larger one. -/
theorem mem_groupMax {key : α → κ} {val : α → Int} {rows : List α} {u : Int} :
    u ∈ groupMax key val rows ↔
      ∃ r ∈ rows, val r = u ∧ ∀ r' ∈ rows, key r' = key r → val r' ≤ u := by
  simp only [groupMax, List.mem_filterMap, List.mem_dedup, List.mem_map]
  constructor
  · rintro ⟨_, ⟨r, hr, rfl⟩, hm⟩
    obtain ⟨hmem, hmax⟩ := List.max?_eq_some_iff.mp hm
    simp only [List.mem_map, List.mem_filter, decide_eq_true_eq] at hmem hmax
    obtain ⟨r₀, ⟨hr₀, hk⟩, hv⟩ := hmem
    exact ⟨r₀, hr₀, hv, fun r' hr' hk' => hmax _ ⟨r', ⟨hr', hk'.trans hk⟩, rfl⟩⟩
  · rintro ⟨r, hr, rfl, hmax⟩
    refine ⟨key r, ⟨r, hr, rfl⟩, List.max?_eq_some_iff.mpr ⟨?_, ?_⟩⟩
    · exact List.mem_map.mpr ⟨r, List.mem_filter.mpr ⟨hr, by simp⟩, rfl⟩
    · intro b hb
      obtain ⟨r', hr', rfl⟩ := List.mem_map.mp hb
      obtain ⟨hr', hk⟩ := List.mem_filter.mp hr'
      exact hmax r' hr' (by simpa using hk)

/-- Maxima only depend on the two columns they are made of. -/
theorem groupMax_map {β : Type*} {key : β → κ} {val : β → Int} {f : α → β} (rows : List α) :
    groupMax key val (rows.map f) = groupMax (key ∘ f) (val ∘ f) rows := by
  simp only [groupMax, List.map_map, List.filter_map]
  rfl

/-- Every row has a row of its group with the largest value. -/
theorem exists_groupMax {key : α → κ} {val : α → Int} {rows : List α} {r : α} (hr : r ∈ rows) :
    ∃ head ∈ rows, key head = key r ∧ val r ≤ val head ∧ val head ∈ groupMax key val rows := by
  have hmem : val r ∈ (rows.filter fun r' => key r' = key r).map val :=
    List.mem_map_of_mem (List.mem_filter.mpr ⟨hr, by simp⟩)
  cases hm : ((rows.filter fun r' => key r' = key r).map val).max? with
  | none =>
    rw [List.max?_eq_none_iff.mp hm] at hmem
    exact absurd hmem List.not_mem_nil
  | some u =>
    obtain ⟨humem, hmax⟩ := List.max?_eq_some_iff.mp hm
    obtain ⟨head, hhead, rfl⟩ := List.mem_map.mp humem
    obtain ⟨hhead, hkey⟩ := List.mem_filter.mp hhead
    have hkey : key head = key r := by simpa using hkey
    refine ⟨head, hhead, hkey, hmax _ hmem, mem_groupMax.mpr ⟨head, hhead, rfl, ?_⟩⟩
    intro r' hr' hk
    refine hmax _ (List.mem_map_of_mem (List.mem_filter.mpr ⟨hr', ?_⟩))
    simpa using hk.trans hkey

end Rows
