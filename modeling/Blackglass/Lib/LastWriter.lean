import Blackglass.Lib.Rows
import Mathlib.Data.List.Nodup
import Mathlib.Logic.Function.Basic

/-!
# Last writer wins

A log of numbered writes to keys, some of which delete their key.  The current value of a
key is the number of its last write, if that one is not a deletion.  A replica that is
told the writes one by one, in the order of their numbers but perhaps not all of them,
ends with the current values if it is told the last write of every key (`eq_current`).
-/

namespace LastWriter

open Rows

variable {κ : Type*}

structure Entry (κ : Type*) where
  key : κ
  seq : Int
  live : Bool
deriving DecidableEq

/-- What the key of an entry has once the entry is written. -/
def Entry.value (e : Entry κ) : Option Int := if e.live then some e.seq else none

/-- The last write to its key. -/
def IsHead (log : List (Entry κ)) (e : Entry κ) : Prop :=
  e ∈ log ∧ ∀ e' ∈ log, e'.key = e.key → e'.seq ≤ e.seq

section

variable [DecidableEq κ]

/-- The current value of every key. -/
def current (log : List (Entry κ)) (k : κ) : Option Int :=
  ((log.filter fun e => e.key = k).maxOn? Entry.seq).bind Entry.value

/-- One write, as a replica applies it. -/
def write (m : κ → Option Int) (e : Entry κ) : κ → Option Int := Function.update m e.key e.value

def writeAll (m : κ → Option Int) (es : List (Entry κ)) : κ → Option Int := es.foldl write m

variable {log : List (Entry κ)} {m : κ → Option Int} {e : Entry κ}

@[simp] theorem writeAll_append_singleton (es : List (Entry κ)) :
    writeAll m (es ++ [e]) = write (writeAll m es) e := by
  rw [writeAll, List.foldl_append]
  rfl

@[simp] theorem write_self : write m e e.key = e.value := Function.update_self ..

theorem write_of_ne {k : κ} (h : k ≠ e.key) : write m e k = m k := Function.update_of_ne h ..

/-- A key that was written has a last write. -/
theorem exists_isHead (h : e ∈ log) : ∃ head, IsHead log head ∧ head.key = e.key := by
  have hmem : e ∈ log.filter fun e' => e'.key = e.key := List.mem_filter.mpr ⟨h, by simp⟩
  obtain ⟨head, hmax⟩ := exists_maxOn? Entry.seq hmem
  obtain ⟨hhead, hkey⟩ := List.mem_filter.mp (List.maxOn?_mem hmax)
  have hkey : head.key = e.key := by simpa using hkey
  refine ⟨head, ⟨hhead, fun e' he' hk => ?_⟩, hkey⟩
  exact le_of_maxOn? hmax (List.mem_filter.mpr ⟨he', by simpa using hk.trans hkey⟩)

/-- The current value is that of the last write, if no two writes have one number. -/
theorem current_of_isHead (hlog : (log.map Entry.seq).Nodup) (h : IsHead log e) :
    current log e.key = e.value := by
  have hmem : e ∈ log.filter fun e' => e'.key = e.key := List.mem_filter.mpr ⟨h.1, by simp⟩
  obtain ⟨head, hmax⟩ := exists_maxOn? Entry.seq hmem
  obtain ⟨hhead, hkey⟩ := List.mem_filter.mp (List.maxOn?_mem hmax)
  have hle : head.seq ≤ e.seq := h.2 head hhead (by simpa using hkey)
  have hge : e.seq ≤ head.seq := le_of_maxOn? hmax hmem
  have heq : head = e := List.inj_on_of_nodup_map hlog hhead h.1 (le_antisymm hle hge)
  rw [current, hmax, heq]
  rfl

theorem current_of_forall_ne {k : κ} (h : ∀ e ∈ log, e.key ≠ k) : current log k = none := by
  have hnil : (log.filter fun e => e.key = k) = [] := by
    simpa [List.filter_eq_nil_iff] using h
  rw [current, hnil]
  rfl

/-- A map with the value of the last write of every key, and nothing else, is the map of
the current values. -/
theorem eq_current (hlog : (log.map Entry.seq).Nodup)
    (hhead : ∀ e, IsHead log e → m e.key = e.value)
    (hnone : ∀ k, (∀ e ∈ log, e.key ≠ k) → m k = none) : m = current log := by
  funext k
  by_cases hk : ∃ e ∈ log, e.key = k
  · obtain ⟨e, he, rfl⟩ := hk
    obtain ⟨head, hmax, hkey⟩ := exists_isHead he
    rw [← hkey, hhead head hmax, current_of_isHead hlog hmax]
  · have hk : ∀ e ∈ log, e.key ≠ k := fun e he hkey => hk ⟨e, he, hkey⟩
    rw [hnone k hk, current_of_forall_ne hk]

end

end LastWriter
