import Mathlib.Data.List.AList
import Mathlib.Tactic.Common

/-!
# Counters of what is held

Something is handed out under a key and given back later, and a counter for each key goes up and
down with it.  `Counts count held` says that the counters are exact: each is the number of times
its key is held.  Taking and giving back keep this, and giving back what is held never takes one
from zero.  The counters may live in a table that has entries for some of the keys only; what the
operations of such a table do to its size is here too.
-/

namespace Tally

variable {κ : Type*}

section

variable [BEq κ] [LawfulBEq κ] {count count' : κ → Nat} {held : List κ} {k : κ}

/-- Each counter is the number of times its key is held. -/
def Counts (count : κ → Nat) (held : List κ) : Prop := ∀ k, count k = held.count k

namespace Counts

omit [LawfulBEq κ] in
theorem congr (h : Counts count held) (heq : ∀ k, count' k = count k) : Counts count' held :=
  fun k => (heq k).trans (h k)

theorem pos (h : Counts count held) (hk : k ∈ held) : 0 < count k := by
  rw [h k]
  exact List.count_pos_iff.mpr hk

theorem acquire (h : Counts count held) (hk : count' k = count k + 1)
    (hother : ∀ j, j ≠ k → count' j = count j) : Counts count' (k :: held) := by
  intro j
  by_cases hj : j = k
  · subst j
    rw [hk, h k, List.count_cons_self]
  · rw [hother j hj, h j, List.count_cons_of_ne (Ne.symm hj)]

theorem release (h : Counts count held) (hk : count' k = count k - 1)
    (hother : ∀ j, j ≠ k → count' j = count j) : Counts count' (held.erase k) := by
  intro j
  by_cases hj : j = k
  · subst j
    rw [hk, h k, List.count_erase_self]
  · rw [hother j hj, h j, List.count_erase_of_ne hj]

end Counts

end

/-! ## One of those who hold something -/

/-- A place of a list can be looked at as its head, as long as the order does not matter. -/
theorem exists_perm_of_getElem? {l : List κ} {i : Nat} {a : κ} (h : l[i]? = some a) :
    ∃ rest, l.Perm (a :: rest) ∧ (∀ b, (l.set i b).Perm (b :: rest)) ∧
      (l.eraseIdx i).Perm rest := by
  obtain ⟨hlt, hget⟩ := List.getElem?_eq_some_iff.mp h
  refine ⟨l.take i ++ l.drop (i + 1), ?_, fun b => ?_, ?_⟩
  · have hsplit : l = l.take i ++ a :: l.drop (i + 1) := by
      rw [← hget, ← List.drop_eq_getElem_cons hlt, List.take_append_drop]
    exact List.Perm.trans (List.Perm.of_eq hsplit) List.perm_middle
  · rw [List.set_eq_take_append_cons_drop, if_pos hlt]
    exact List.perm_middle
  · rw [List.eraseIdx_eq_take_drop_succ]

/-! ## The size of a table -/

section Table

variable {β : κ → Type*} {table : AList β} {k : κ} {b : β k}

theorem length_keys (table : AList β) : table.keys.length = table.entries.length :=
  List.length_map _

variable [DecidableEq κ]

theorem length_insert_of_mem (h : k ∈ table) :
    (table.insert k b).entries.length = table.entries.length := by
  have hpos : 0 < table.keys.length := List.length_pos_of_mem (AList.mem_keys.mp h)
  rw [← length_keys, ← length_keys, AList.keys_insert, List.length_cons,
    List.length_erase_of_mem (AList.mem_keys.mp h)]
  omega

theorem length_insert_of_notMem (h : k ∉ table) :
    (table.insert k b).entries.length = table.entries.length + 1 := by
  rw [AList.entries_insert_of_notMem h, List.length_cons]

theorem length_erase_le (table : AList β) (k : κ) :
    (table.erase k).entries.length ≤ table.entries.length := by
  rw [← length_keys, ← length_keys, AList.keys_erase]
  exact List.length_erase_le

end Table

end Tally
