import Mathlib.Algebra.BigOperators.Group.Finset.Piecewise
import Mathlib.Algebra.Order.BigOperators.Group.Finset
import Mathlib.Data.Fintype.Basic
import Mathlib.Data.Int.Order.Basic
import Mathlib.Tactic.Ring

/-!
# Budgets with reservations

An account has spent something, and any number of parties hold reservations for what they
are going to spend.  A reservation is made when it fits beside what is spent and reserved;
its holder may spend it or let it go, others may spend what is free, and what is spent may
be given back.  As long as somebody holds a reservation, all that is spent and reserved is
within the limit (`Within.step`), so that whoever holds one can spend it (`Within.fits`).
Before the first reservation nothing is said: the limit may have been lowered.
-/

namespace Budget

variable {C : Type*}

structure Account (C : Type*) where
  used : Int
  held : C → Int

variable [Fintype C]

/-- All that is reserved. -/
def Account.reserved (a : Account C) : Int := ∑ c, a.held c

/-- What is spent and reserved is within a limit, if anything is reserved. -/
structure Account.Within (a : Account C) (limit : Int) : Prop where
  nonneg : ∀ c, 0 ≤ a.held c
  le : (∃ c, 0 < a.held c) → a.used + a.reserved ≤ limit

section

variable {f : C → Int} {c : C}

/-- A sum over all parties, when one of them changes. -/
theorem sum_update [DecidableEq C] {α : Type*} (g : α → Int) (k : C → α) (c : C) (x : α) :
    ∑ i, g (Function.update k c x i) = ∑ i, g (k i) - g (k c) + g x := by
  have hupdate : (fun i => g (Function.update k c x i)) =
      Function.update (fun i => g (k i)) c (g x) := Function.comp_update g k c x
  rw [hupdate, Finset.sum_update_of_mem (Finset.mem_univ c),
    Finset.sum_eq_add_sum_sdiff_singleton_of_mem (Finset.mem_univ c) fun i => g (k i)]
  ring

theorem le_sum (h : ∀ c, 0 ≤ f c) (c : C) : f c ≤ ∑ i, f i :=
  Finset.single_le_sum (fun i _ => h i) (Finset.mem_univ c)

end

variable [DecidableEq C]

/-- What can happen to an account with a limit. -/
inductive Step (limit : Int) (a : Account C) : Account C → Prop where
  | reserve {c n} : a.held c = 0 → 0 < n → a.used + a.reserved + n ≤ limit →
      Step limit a { a with held := Function.update a.held c n }
  | spendHeld {c} :
      Step limit a { used := a.used + a.held c, held := Function.update a.held c 0 }
  | release {c} : Step limit a { a with held := Function.update a.held c 0 }
  | spendFree {n} : n = 0 ∨ a.used + n + a.reserved ≤ limit →
      Step limit a { a with used := a.used + n }
  | giveBack {used} : used ≤ a.used → Step limit a { a with used := used }

namespace Account.Within

variable {a a' : Account C} {limit : Int} {c : C}

omit [DecidableEq C] in
/-- Whoever holds a reservation can spend it. -/
theorem fits (h : a.Within limit) (hc : 0 < a.held c) : a.used + a.held c ≤ limit := by
  have hle := h.le ⟨c, hc⟩
  have hheld : a.held c ≤ a.reserved := le_sum h.nonneg c
  omega

theorem reserved_update (a : Account C) (c : C) (n : Int) (used : Int) :
    ({ used := used, held := Function.update a.held c n } : Account C).reserved =
      a.reserved - a.held c + n :=
  sum_update id a.held c n

theorem nonneg_update (h : a.Within limit) {n : Int} (hn : 0 ≤ n) (i : C) :
    0 ≤ Function.update a.held c n i := by
  by_cases hi : i = c
  · rw [hi, Function.update_self]
    exact hn
  · rw [Function.update_of_ne hi]
    exact h.nonneg i

omit [Fintype C] in
/-- A party that still holds something after `c` has nothing any more held it before. -/
theorem exists_held (h : ∃ i, 0 < Function.update a.held c 0 i) : ∃ i, 0 < a.held i := by
  obtain ⟨i, hi⟩ := h
  by_cases hic : i = c
  · rw [hic, Function.update_self] at hi
    exact absurd hi (lt_irrefl 0)
  · rw [Function.update_of_ne hic] at hi
    exact ⟨i, hi⟩

theorem step (h : a.Within limit) (hstep : Step limit a a') : a'.Within limit := by
  cases hstep with
  | @reserve c n hnone hn hfits =>
    refine ⟨h.nonneg_update hn.le, fun _ => ?_⟩
    rw [reserved_update, hnone]
    show a.used + _ ≤ limit
    omega
  | @spendHeld c =>
    refine ⟨h.nonneg_update le_rfl, fun hheld => ?_⟩
    have hle := h.le (exists_held hheld)
    rw [reserved_update]
    show a.used + a.held c + _ ≤ limit
    omega
  | @release c =>
    refine ⟨h.nonneg_update le_rfl, fun hheld => ?_⟩
    have hle := h.le (exists_held hheld)
    have hc := h.nonneg c
    rw [reserved_update]
    show a.used + _ ≤ limit
    omega
  | @spendFree n hfree =>
    refine ⟨h.nonneg, fun hheld => ?_⟩
    have hle := h.le hheld
    show a.used + n + a.reserved ≤ limit
    rcases hfree with hzero | hfits
    · omega
    · exact hfits
  | @giveBack used hused =>
    refine ⟨h.nonneg, fun hheld => ?_⟩
    have hle := h.le hheld
    show used + a.reserved ≤ limit
    omega

end Account.Within

end Budget
