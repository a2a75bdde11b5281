import Mathlib.Tactic.Common

/-!
# Computations that may fail

The ways a transaction stops early, as `Except` computations: a check that rejects
(`rejectIf`), one that is made only on a condition (`onlyIf`) and a value that has to be
there (`orReject`).  Each has one lemma that
says when it succeeds, and `bind_eq_ok` takes a sequence of such steps apart, so that
an operation is inverted by reading its steps from the top.  Arithmetic that may leave its
range is one of these steps (`within`).
-/

namespace Outcome

variable {ε α β : Type}

/-- `if bad { return Err(e) }`. -/
def rejectIf (bad : Prop) [Decidable bad] (e : ε) : Except ε Unit :=
  if bad then .error e else .ok ()

/-- `value.ok_or(e)?`. -/
def orReject (value : Option α) (e : ε) : Except ε α :=
  match value with
  | none => .error e
  | some a => .ok a

/-- `if condition { check?; }`. -/
def onlyIf (condition : Prop) [Decidable condition] (check : Except ε Unit) : Except ε Unit :=
  if condition then check else .ok ()

@[simp] theorem rejectIf_eq_ok {bad : Prop} [Decidable bad] {e : ε} {u : Unit} :
    rejectIf bad e = .ok u ↔ ¬bad := by
  unfold rejectIf
  split <;> simp_all

@[simp] theorem onlyIf_eq_ok {condition : Prop} [Decidable condition] {check : Except ε Unit}
    {u : Unit} : onlyIf condition check = .ok u ↔ (condition → check = .ok ()) := by
  unfold onlyIf
  split <;> simp_all

@[simp] theorem orReject_eq_ok {value : Option α} {e : ε} {a : α} :
    orReject value e = .ok a ↔ value = some a := by
  cases value <;> simp [orReject]

/-- A sequence succeeds when its first step does and the rest does on that result. -/
theorem bind_eq_ok {x : Except ε α} {f : α → Except ε β} {b : β} :
    x >>= f = .ok b ↔ ∃ a, x = .ok a ∧ f a = .ok b := by
  cases x <;> simp [bind, Except.bind]

/-- A sequence fails when its first step does, or the rest on its result. -/
theorem bind_eq_error {x : Except ε α} {f : α → Except ε β} {e : ε} :
    x >>= f = .error e ↔ x = .error e ∨ ∃ a, x = .ok a ∧ f a = .error e := by
  cases x <;> simp [bind, Except.bind]

@[simp] theorem rejectIf_eq_error {bad : Prop} [Decidable bad] {e e' : ε} :
    rejectIf bad e = .error e' ↔ bad ∧ e = e' := by
  unfold rejectIf
  split <;> simp_all

@[simp] theorem orReject_eq_error {value : Option α} {e e' : ε} :
    orReject value e = .error e' ↔ value = none ∧ e = e' := by
  cases value <;> simp [orReject]

/-- The result of a check carries nothing. -/
theorem exists_unit {p : Unit → Prop} : (∃ u, p u) ↔ p () := ⟨fun ⟨_, h⟩ => h, fun h => ⟨_, h⟩⟩

theorem pure_eq_ok {a b : α} : (pure a : Except ε α) = .ok b ↔ a = b := by
  simp [pure, Except.pure]

@[simp] theorem pure_ne_error {a : α} {e : ε} : (pure a : Except ε α) ≠ .error e := nofun

theorem map_eq_ok {x : Except ε α} {f : α → β} {b : β} :
    f <$> x = .ok b ↔ ∃ a, x = .ok a ∧ f a = b := by
  cases x <;> simp [Functor.map, Except.map]

/-- What every step of a loop keeps holds after the loop. -/
theorem foldlM_invariant {P : β → Prop} {f : β → α → Except ε β} {xs : List α} {s s' : β}
    (hstep : ∀ s, ∀ a ∈ xs, ∀ s', P s → f s a = .ok s' → P s') (hs : P s)
    (h : xs.foldlM f s = .ok s') : P s' := by
  induction xs generalizing s with
  | nil =>
    rw [List.foldlM_nil, pure_eq_ok] at h
    exact h ▸ hs
  | cons a xs ih =>
    rw [List.foldlM_cons, bind_eq_ok] at h
    obtain ⟨t, hfirst, hrest⟩ := h
    exact ih (fun s b hb => hstep s b (List.mem_cons_of_mem _ hb))
      (hstep s a List.mem_cons_self t hs hfirst) hrest

/-- A loop that succeeds has succeeded at every element. -/
theorem foldlM_step_of_mem {f : β → α → Except ε β} {xs : List α} {s s' : β} {a : α} (ha : a ∈ xs)
    (h : xs.foldlM f s = .ok s') : ∃ t t', f t a = .ok t' := by
  induction xs generalizing s with
  | nil => exact absurd ha List.not_mem_nil
  | cons b xs ih =>
    rw [List.foldlM_cons, bind_eq_ok] at h
    obtain ⟨t, hfirst, hrest⟩ := h
    rcases List.mem_cons.mp ha with rfl | ha
    · exact ⟨s, t, hfirst⟩
    · exact ih ha hrest

/-- An invariant that also speaks of the part of the list that was folded. -/
theorem foldlM_induction {P : List α → β → Prop} {f : β → α → Except ε β} {xs : List α} {s s' : β}
    (hstep : ∀ done x rest s s', xs = done ++ x :: rest → P done s → f s x = .ok s' →
      P (done ++ [x]) s')
    (hs : P [] s) (h : xs.foldlM f s = .ok s') : P xs s' := by
  suffices hgen : ∀ rest done s, xs = done ++ rest → P done s → rest.foldlM f s = .ok s' → P xs s'
    from hgen xs [] s rfl hs h
  intro rest
  induction rest with
  | nil =>
    intro done s hxs hP hfold
    cases hfold
    rw [hxs, List.append_nil]
    exact hP
  | cons x rest ih =>
    intro done s hxs hP hfold
    rw [List.foldlM_cons] at hfold
    obtain ⟨s₁, hone, hrest⟩ := bind_eq_ok.mp hfold
    refine ih (done ++ [x]) s₁ ?_ (hstep done x rest s s₁ hxs hP hone) hrest
    rw [hxs, List.append_assoc]
    rfl

/-- A loop succeeds if every step does, from the states that the steps before it lead to. -/
theorem foldlM_succeeds {P : List α → β → Prop} {f : β → α → Except ε β} {xs : List α} {s : β}
    (hstep : ∀ done x rest s, xs = done ++ x :: rest → P done s →
      ∃ s', f s x = .ok s' ∧ P (done ++ [x]) s')
    (hs : P [] s) : ∃ s', xs.foldlM f s = .ok s' ∧ P xs s' := by
  suffices hgen : ∀ rest done s, xs = done ++ rest → P done s →
      ∃ s', rest.foldlM f s = .ok s' ∧ P xs s' from hgen xs [] s rfl hs
  intro rest
  induction rest with
  | nil =>
    intro done s hxs hP
    rw [List.append_nil] at hxs
    exact ⟨s, rfl, hxs ▸ hP⟩
  | cons x rest ih =>
    intro done s hxs hP
    obtain ⟨s₁, hone, hP₁⟩ := hstep done x rest s hxs hP
    obtain ⟨s', hrest, hP'⟩ := ih (done ++ [x]) s₁ (by rw [hxs, List.append_assoc]; rfl) hP₁
    exact ⟨s', by rw [List.foldlM_cons, bind_eq_ok]; exact ⟨s₁, hone, hrest⟩, hP'⟩

/-! ## Arithmetic with bounds -/

/-- A result that is only there between two bounds. -/
def within (lo hi : Int) (e : ε) (x : Int) : Except ε Int :=
  if lo ≤ x ∧ x ≤ hi then .ok x else .error e

theorem within_of_mem {lo hi x : Int} {e : ε} (hlo : lo ≤ x) (hhi : x ≤ hi) :
    within lo hi e x = .ok x := if_pos ⟨hlo, hhi⟩

end Outcome
