import Mathlib.Data.List.Basic

/-!
# Bounded broadcast channels

A channel to many receivers that keeps a bounded number of values.  The channel is the
list of everything ever sent to it, a receiver is the position of the value it takes next,
and a receiver more than `capacity` values behind has lost some: it learns that at its
next receive, and only then.
-/

namespace Broadcast

variable {α : Type*}

structure Receiver where
  next : Nat
deriving DecidableEq

/-- A new receiver gets what is sent from now on. -/
def subscribe (sent : List α) : Receiver := ⟨sent.length⟩

/-- The values that were sent and not received yet, lost ones included. -/
def Receiver.undelivered (r : Receiver) (sent : List α) : List α := sent.drop r.next

inductive Received (α : Type*) where
  | empty
  | lagged
  | value (a : α) (r : Receiver)

def Receiver.receive (r : Receiver) (capacity : Nat) (sent : List α) : Received α :=
  if capacity < (r.undelivered sent).length then .lagged
  else match r.undelivered sent with
    | [] => .empty
    | a :: _ => .value a ⟨r.next + 1⟩

@[simp] theorem undelivered_subscribe (sent : List α) : (subscribe sent).undelivered sent = [] :=
  List.drop_length

theorem undelivered_append {r : Receiver} {sent : List α} (h : r.next ≤ sent.length)
    (more : List α) : r.undelivered (sent ++ more) = r.undelivered sent ++ more :=
  List.drop_append_of_le_length h

section

variable {r r' : Receiver} {capacity : Nat} {sent : List α} {a : α}

/-- A value is received from the front of the queue of a receiver that has lost none. -/
theorem receive_value (h : r.receive capacity sent = .value a r') :
    r.undelivered sent = a :: r'.undelivered sent ∧ r'.next ≤ sent.length ∧
      (r.undelivered sent).length ≤ capacity := by
  unfold Receiver.receive at h
  split at h
  · cases h
  · rename_i hcap
    split at h
    · cases h
    · rename_i b rest hqueue
      cases h
      refine ⟨?_, ?_, Nat.le_of_not_lt hcap⟩
      · have htail : sent.drop (r.next + 1) = rest := by
          rw [← List.tail_drop]
          exact congrArg List.tail hqueue
        rw [hqueue]
        exact congrArg (a :: ·) htail.symm
      · have hlength := congrArg List.length hqueue
        simp only [Receiver.undelivered, List.length_drop, List.length_cons] at hlength
        show r.next + 1 ≤ sent.length
        omega

/-- A receiver that has lost values receives none of those that are left. -/
theorem receive_of_lagged (h : capacity < (r.undelivered sent).length) :
    r.receive capacity sent = .lagged :=
  if_pos h

end

end Broadcast
