import Mathlib.Data.List.Perm.Basic
import Mathlib.Tactic.Common

/-!
# Sliding windows

A limiter that counts what has happened in the last `width` units of time need not remember
everything: it keeps a queue, and lets what is too old leave at the front.  Where the clock does
not go back, the queue holds just what a look at the whole history would find (`Tracks`).

Times are natural numbers, and a difference of times is never negative, as with a monotonic clock
whose readings are compared by a subtraction that stops at zero.
-/

namespace Window

variable {α : Type*} (time : α → Nat) (width : Nat)

/-- What is less than `width` old. -/
def recent (now : Nat) (xs : List α) : List α := xs.filter fun a => now - time a < width

/-- The queue without what is too old at its front. -/
def expire (now : Nat) (queue : List α) : List α := queue.dropWhile fun a => width ≤ now - time a

variable {time width} {now now' : Nat} {queue history history' : List α} {a : α}

@[simp] theorem recent_nil : recent time width now ([] : List α) = [] := rfl

theorem recent_append (xs ys : List α) : recent time width now (xs ++ ys) =
    recent time width now xs ++ recent time width now ys :=
  List.filter_append _ _

theorem recent_cons_of_pos (h : now - time a < width) (xs : List α) :
    recent time width now (a :: xs) = a :: recent time width now xs :=
  List.filter_cons_of_pos (decide_eq_true h)

theorem recent_cons_of_neg (h : ¬now - time a < width) (xs : List α) :
    recent time width now (a :: xs) = recent time width now xs :=
  List.filter_cons_of_neg (by simpa using h)

/-- In a queue that is in order everything after the first recent entry is recent too. -/
theorem expire_eq_recent (h : queue.Pairwise fun a b => time a ≤ time b) :
    expire time width now queue = recent time width now queue := by
  induction queue with
  | nil => rfl
  | cons a queue ih =>
    obtain ⟨hle, h⟩ := List.pairwise_cons.mp h
    by_cases hold : width ≤ now - time a
    · rw [expire, List.dropWhile_cons_of_pos (by simpa using hold), recent,
        List.filter_cons_of_neg (by simpa using hold)]
      exact ih h
    · rw [expire, List.dropWhile_cons_of_neg (by simpa using hold), recent,
        List.filter_eq_self.mpr]
      intro b hb
      rcases List.mem_cons.mp hb with rfl | hb
      · simpa using hold
      · have := hle b hb
        exact decide_eq_true (by omega)

/-- What is recent later is recent now. -/
theorem recent_recent (h : now ≤ now') (xs : List α) :
    recent time width now' (recent time width now xs) = recent time width now' xs := by
  rw [recent, recent, List.filter_filter]
  refine List.filter_congr fun a _ => ?_
  rw [Bool.and_eq_left_iff_imp]
  simp only [decide_eq_true_eq]
  omega

variable (time width) in
/-- At `now`, the queue has all of the history that is recent. -/
structure Tracks (now : Nat) (queue history : List α) : Prop where
  ordered : queue.Pairwise fun a b => time a ≤ time b
  past : ∀ a ∈ queue, time a ≤ now
  same : (recent time width now queue).Perm (recent time width now history)

namespace Tracks

theorem nil : Tracks time width now ([] : List α) [] := ⟨.nil, by simp, .nil⟩

/-- Whatever is left of the queue has all of itself. -/
theorem self {queue' : List α} (h : Tracks time width now queue history)
    (hqueue : queue'.Sublist queue) : Tracks time width now queue' queue' :=
  ⟨h.ordered.sublist hqueue, fun a ha => h.past a (hqueue.subset ha), .refl _⟩

theorem later (h : Tracks time width now queue history) (hle : now ≤ now') :
    Tracks time width now' queue history where
  ordered := h.ordered
  past a ha := Nat.le_trans (h.past a ha) hle
  same := by
    rw [← recent_recent hle queue, ← recent_recent hle history]
    exact h.same.filter _

/-- What the queue is left with is what a count over the history finds. -/
theorem expire_perm (h : Tracks time width now queue history) :
    (expire time width now queue).Perm (recent time width now history) := by
  rw [expire_eq_recent h.ordered]
  exact h.same

theorem expire (h : Tracks time width now queue history) :
    Tracks time width now (expire time width now queue) history where
  ordered := h.ordered.sublist (List.dropWhile_sublist _)
  past a ha := h.past a ((List.dropWhile_sublist _).subset ha)
  same := by
    rw [expire_eq_recent h.ordered, recent_recent (Nat.le_refl _)]
    exact h.same

theorem push (h : Tracks time width now queue history) (ha : time a = now) :
    Tracks time width now (queue ++ [a]) (history ++ [a]) where
  ordered := List.pairwise_append.mpr ⟨h.ordered, List.pairwise_singleton _ _, fun b hb c hc => by
    rw [List.mem_singleton.mp hc, ha]
    exact h.past b hb⟩
  past b hb := by
    rcases List.mem_append.mp hb with hb | hb
    · exact h.past b hb
    · exact Nat.le_of_eq (by rw [List.mem_singleton.mp hb, ha])
  same := by
    rw [recent_append, recent_append]
    exact h.same.append_right _

/-- An entry that is taken from the end of the queue and from the history. -/
theorem pop (h : Tracks time width now (queue ++ [a]) history)
    (hhistory : history.Perm (a :: history')) : Tracks time width now queue history' where
  ordered := (List.pairwise_append.mp h.ordered).1
  past b hb := h.past b (List.mem_append_left _ hb)
  same := by
    have hsame :
        (recent time width now (queue ++ [a])).Perm (recent time width now (a :: history')) :=
      h.same.trans (hhistory.filter _)
    rw [recent_append] at hsame
    by_cases hrecent : now - time a < width
    · rw [recent_cons_of_pos hrecent, recent_cons_of_pos hrecent, recent_nil] at hsame
      exact ((List.perm_append_singleton _ _).symm.trans hsame).cons_inv
    · rw [recent_cons_of_neg hrecent, recent_cons_of_neg hrecent, recent_nil,
        List.append_nil] at hsame
      exact hsame

/-- Where nothing of the queue counts any more, anything may be taken from both. -/
theorem of_old {queue' : List α} (h : Tracks time width now queue history)
    (hold : recent time width now queue = []) (hqueue : queue'.Sublist queue)
    (hhistory : history' ⊆ history) : Tracks time width now queue' history' where
  ordered := h.ordered.sublist hqueue
  past a ha := h.past a (hqueue.subset ha)
  same := by
    have hnil : recent time width now history = [] := (hold ▸ h.same).nil_eq.symm
    have hqueue' : recent time width now queue' = [] :=
      List.eq_nil_of_sublist_nil (hold ▸ hqueue.filter _)
    have hhistory' : recent time width now history' = [] := by
      refine List.filter_eq_nil_iff.mpr fun a ha => ?_
      exact List.filter_eq_nil_iff.mp hnil a (hhistory ha)
    rw [hqueue', hhistory']

end Tracks

end Window
