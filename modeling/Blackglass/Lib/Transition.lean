import Mathlib.Tactic.Common

/-!
# Runs of a transition system

A system is a relation `step s a s'`: in state `s` the action `a` may lead to `s'`.
Interleavings need no more than this, because the actions of all parties are actions of
the one system.  The two rules for runs are that what every step keeps holds at the end
(`Run.invariant`), and that what every step keeps under a side condition holds at the
end of a run all of whose steps meet it (`Run.invariant_of_guard`).
-/

namespace Transition

variable {σ α : Type*} {step : σ → α → σ → Prop}

/-- `Run step s as s'`: the actions `as`, in order, lead from `s` to `s'`. -/
inductive Run (step : σ → α → σ → Prop) : σ → List α → σ → Prop where
  | nil (s : σ) : Run step s [] s
  | cons {s s' s'' : σ} {a : α} {as : List α} :
      step s a s' → Run step s' as s'' → Run step s (a :: as) s''

/-- A step that only counts where the side condition `guard` holds of its state and
action. -/
def Guarded (guard : σ → α → Prop) (step : σ → α → σ → Prop) (s : σ) (a : α) (s' : σ) : Prop :=
  guard s a ∧ step s a s'

namespace Run

variable {s s' s'' : σ} {a : α} {as bs : List α}

theorem append (h₁ : Run step s as s') (h₂ : Run step s' bs s'') : Run step s (as ++ bs) s'' := by
  induction h₁ with
  | nil s => exact h₂
  | cons hstep _ ih => exact .cons hstep (ih h₂)

theorem snoc (h₁ : Run step s as s') (h₂ : step s' a s'') : Run step s (as ++ [a]) s'' :=
  h₁.append (.cons h₂ (.nil _))

/-- A run can be cut anywhere. -/
theorem split (h : Run step s (as ++ bs) s'') : ∃ s', Run step s as s' ∧ Run step s' bs s'' := by
  induction as generalizing s with
  | nil => exact ⟨s, .nil s, h⟩
  | cons a as ih =>
    cases h with
    | cons hstep hrest =>
      obtain ⟨s', h₁, h₂⟩ := ih hrest
      exact ⟨s', .cons hstep h₁, h₂⟩

/-- A run can be cut at any of its steps. -/
theorem split_cons (h : Run step s (as ++ a :: bs) s'') :
    ∃ s₁ s₂, Run step s as s₁ ∧ step s₁ a s₂ ∧ Run step s₂ bs s'' := by
  obtain ⟨s₁, h₁, h₂⟩ := h.split
  cases h₂ with
  | cons hstep hrest => exact ⟨s₁, _, h₁, hstep, hrest⟩

/-- What holds at the start and is kept by every step holds at the end. -/
theorem invariant {I : σ → Prop} (hstep : ∀ {s a s'}, I s → step s a s' → I s')
    (hs : I s) (h : Run step s as s') : I s' := by
  induction h with
  | nil s => exact hs
  | cons h₁ _ ih => exact ih (hstep hs h₁)

/-- What is kept by every step that meets `guard` holds at the end of a run of such
steps. -/
theorem invariant_of_guard {I : σ → Prop} {guard : σ → α → Prop}
    (hstep : ∀ {s a s'}, I s → guard s a → step s a s' → I s')
    (hs : I s) (h : Run (Guarded guard step) s as s') : I s' :=
  invariant (fun hI hg => hstep hI hg.1 hg.2) hs h

/-- A guarded run is a run. -/
theorem of_guarded {guard : σ → α → Prop} (h : Run (Guarded guard step) s as s') :
    Run step s as s' := by
  induction h with
  | nil s => exact .nil s
  | cons h₁ _ ih => exact .cons h₁.2 ih

/-- Where a step is a partial function, a run can be computed. -/
theorem of_foldlM {next : σ → α → Option σ} {guard : α → Prop} (hguard : ∀ a ∈ as, guard a)
    (h : as.foldlM next s = some s') :
    Run (Guarded (fun _ a => guard a) fun s a s' => next s a = some s') s as s' := by
  induction as generalizing s with
  | nil =>
    cases h
    exact .nil _
  | cons a as ih =>
    rw [List.foldlM_cons] at h
    obtain ⟨s₁, h₁, h⟩ := Option.bind_eq_some_iff.mp h
    exact .cons ⟨hguard a List.mem_cons_self, h₁⟩
      (ih (fun b hb => hguard b (List.mem_cons_of_mem _ hb)) h)

end Run

end Transition
