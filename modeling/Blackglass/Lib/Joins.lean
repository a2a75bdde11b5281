import Blackglass.Lib.Rows

/-!
# Groups and joins

`GROUP BY` and the two joins as list functions.  A join repeats a row for each of its matches, and
a left join keeps one that has none; so a query that joins on keys has one row for each row on its
left only if every row has at most one match (`leftJoin_eq_map`, `join_eq_filterMap`).
-/

namespace Rows

variable {α β κ : Type*}

/-- `GROUP BY`: the keys with their rows, in some order. -/
def groupBy [DecidableEq κ] (key : α → κ) (rows : List α) : List (κ × List α) :=
  (rows.map key).dedup.map fun k => (k, rows.filter fun r => key r = k)

/-- `JOIN .. ON`. -/
def join (on : α → β → Bool) (xs : List α) (ys : List β) : List (α × β) :=
  xs.flatMap fun x => (ys.filter (on x)).map fun y => (x, y)

/-- `LEFT JOIN .. ON`. -/
def leftJoin (on : α → β → Bool) (xs : List α) (ys : List β) : List (α × Option β) :=
  xs.flatMap fun x =>
    match ys.filter (on x) with
    | [] => [(x, none)]
    | found => found.map fun y => (x, some y)

section Joins

variable {on : α → β → Bool} {xs : List α} {ys : List β} {lookup : α → Option β}

theorem leftJoin_eq_map (h : ∀ x ∈ xs, ys.filter (on x) = (lookup x).toList) :
    leftJoin on xs ys = xs.map fun x => (x, lookup x) := by
  induction xs with
  | nil => rfl
  | cons x xs ih =>
    obtain ⟨hx, hxs⟩ := List.forall_mem_cons.mp h
    rw [leftJoin, List.flatMap_cons, List.map_cons, ← leftJoin, ih hxs, hx]
    cases lookup x <;> rfl

theorem join_eq_filterMap (h : ∀ x ∈ xs, ys.filter (on x) = (lookup x).toList) :
    join on xs ys = xs.filterMap fun x => (lookup x).map fun y => (x, y) := by
  induction xs with
  | nil => rfl
  | cons x xs ih =>
    obtain ⟨hx, hxs⟩ := List.forall_mem_cons.mp h
    rw [join, List.flatMap_cons, ← join, ih hxs, hx, List.filterMap_cons]
    cases lookup x <;> rfl

/-- Conditions on the right side of a join can be asked before it. -/
theorem filter_join (q : β → Bool) :
    (join on xs ys).filter (fun p => q p.2) = join on xs (ys.filter q) := by
  simp only [join, List.filter_flatMap, List.filter_map, List.filter_filter, Function.comp_def,
    Bool.and_comm]

/-- A sum over a join, row by row of its right side. -/
theorem sumOf_join (f : α × β → Int) (xs : List α) (ys : List β) :
    sumOf f (join on xs ys) =
      sumOf (fun y => sumOf (fun x => f (x, y)) (xs.filter fun x => on x y)) ys := by
  induction xs with
  | nil => exact (sumOf_eq_zero fun _ _ => rfl).symm
  | cons x xs ih =>
    have hfirst : ∀ ys : List β, sumOf f ((ys.filter (on x)).map fun y => (x, y)) =
        sumOf (fun y => if on x y then f (x, y) else 0) ys := by
      intro ys
      induction ys with
      | nil => rfl
      | cons y ys ih => cases hon : on x y <;> simp [hon, ih]
    have hsplit : (fun y => sumOf (fun x => f (x, y)) ((x :: xs).filter fun x => on x y)) =
        fun y => (if on x y then f (x, y) else 0) +
          sumOf (fun x => f (x, y)) (xs.filter fun x => on x y) := by
      funext y
      cases hon : on x y <;> simp [hon]
    rw [join, List.flatMap_cons, ← join, sumOf_append, hfirst, ih, hsplit, sumOf_add]

end Joins

/-! ## Aggregates -/

theorem sumOf_map (f : β → Int) (g : α → β) (rows : List α) :
    sumOf f (rows.map g) = sumOf (fun r => f (g r)) rows := by
  rw [sumOf, List.map_map]
  rfl

theorem sumOf_perm {f : α → Int} {xs ys : List α} (h : xs.Perm ys) : sumOf f xs = sumOf f ys :=
  (h.map f).sum_eq

/-- `SUM(CASE WHEN .. THEN 1 ELSE 0 END)`. -/
theorem sumOf_ite_one (p : α → Bool) (rows : List α) :
    sumOf (fun r => if p r then 1 else 0) rows = (rows.filter p).length := by
  induction rows with
  | nil => rfl
  | cons r rows ih =>
    rw [sumOf_cons, ih]
    cases hp : p r
    · simp [hp]
    · simp [hp]
      omega

section Groups

variable [DecidableEq κ] {key : α → κ} {rows : List α} {k : κ}

/-- The group of a key, if the key has rows. -/
theorem groupBy_filter (key : α → κ) (rows : List α) (k : κ) :
    (groupBy key rows).filter (fun g => g.1 = k) =
      if k ∈ rows.map key then [(k, rows.filter fun r => key r = k)] else [] := by
  have hkeys : (rows.map key).dedup.filter (fun k' => k' = k) =
      if k ∈ rows.map key then [k] else [] := by
    have hnodup := List.nodup_dedup (rows.map key)
    split
    · next hk =>
        have hcount := List.count_eq_one_of_mem hnodup (List.mem_dedup.mpr hk)
        exact (List.filter_beq k).trans (by rw [hcount, List.replicate_one])
    · next hk =>
        refine List.filter_eq_nil_iff.mpr fun k' hk' hsame => hk ?_
        exact of_decide_eq_true hsame ▸ List.mem_dedup.mp hk'
  have hcomp : ((fun g : κ × List α => decide (g.1 = k)) ∘
      fun k => (k, rows.filter fun r => key r = k)) = fun k' => decide (k' = k) := rfl
  rw [groupBy, List.filter_map, hcomp, hkeys]
  split <;> rfl

theorem mem_groupBy {g : κ × List α} (h : g ∈ groupBy key rows) :
    g.2 = rows.filter fun r => key r = g.1 := by
  obtain ⟨k, -, rfl⟩ := List.mem_map.mp h
  rfl

/-- The group of a key, if its rows also meet a condition. -/
theorem groupBy_filter_and (q : List α → Bool) (hk : k ∈ rows.map key) :
    (groupBy key rows).filter (fun g => q g.2 && g.1 = k) =
      if q (rows.filter fun r => key r = k) then [(k, rows.filter fun r => key r = k)] else [] := by
  rw [← List.filter_filter, groupBy_filter, if_pos hk, List.filter_cons, List.filter_nil]

/-- The row has the largest value of its group. -/
def attainsMax (key : α → κ) (val : α → Int) (rows : List α) (r : α) : Bool :=
  ((rows.filter fun r' => key r' = key r).map val).max? = some (val r)

theorem attainsMax_iff {val : α → Int} {r : α} (hr : r ∈ rows) :
    attainsMax key val rows r = true ↔ ∀ r' ∈ rows, key r' = key r → val r' ≤ val r := by
  rw [attainsMax, decide_eq_true_iff, List.max?_eq_some_iff]
  constructor
  · rintro ⟨-, hmax⟩ r' hr' hkey
    exact hmax _ (List.mem_map_of_mem (List.mem_filter.mpr ⟨hr', decide_eq_true hkey⟩))
  · intro hmax
    refine ⟨List.mem_map_of_mem (List.mem_filter.mpr ⟨hr, decide_eq_true rfl⟩), ?_⟩
    intro u hu
    obtain ⟨r', hr', rfl⟩ := List.mem_map.mp hu
    obtain ⟨hr', hkey⟩ := List.mem_filter.mp hr'
    exact hmax r' hr' (of_decide_eq_true hkey)

end Groups

/-- The rows that an option has are the one that is there. -/
theorem filter_mem_option [DecidableEq α] {rows : List α} {row : Option α} (hnodup : rows.Nodup)
    (hrow : ∀ r ∈ row, r ∈ rows) : rows.filter (fun r => row = some r) = row.toList := by
  cases row with
  | none => exact List.filter_eq_nil_iff.mpr fun _ _ => by simp
  | some r =>
    have hcount := List.count_eq_one_of_mem hnodup (hrow r rfl)
    have hcongr : rows.filter (fun r' => some r = some r') = rows.filter (· == r) :=
      List.filter_congr fun r' _ => by
        rw [Bool.eq_iff_iff, decide_eq_true_iff, beq_iff_eq, Option.some_inj, eq_comm]
    rw [hcongr, List.filter_beq, hcount]
    rfl

end Rows
