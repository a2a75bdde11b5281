import Mathlib.Data.List.Basic
import Mathlib.Tactic.Common

/-!
# Watch channels

A watch channel holds one value, which its receivers can read at any time.  Sending replaces the
value and fails when no receiver is left.  Channels are numbered in the order in which they were
opened and are never removed, so that a number stands for the same channel for good.
-/

namespace Watch

structure Channel (α : Type*) where
  value : α
  receivers : Nat
deriving DecidableEq

variable {α : Type*} {channels : List (Channel α)} {c d : Nat} {v : α}

/-- The next channel, with its first receiver. -/
def opened (channels : List (Channel α)) (v : α) : List (Channel α) := channels ++ [⟨v, 1⟩]

/-- Another receiver of the channel. -/
def subscribe (channels : List (Channel α)) (c : Nat) : List (Channel α) :=
  channels.modify c fun channel => { channel with receivers := channel.receivers + 1 }

/-- A receiver of the channel is dropped. -/
def unsubscribe (channels : List (Channel α)) (c : Nat) : List (Channel α) :=
  channels.modify c fun channel => { channel with receivers := channel.receivers - 1 }

def send (channels : List (Channel α)) (v : α) (c : Nat) : List (Channel α) :=
  channels.modify c fun channel =>
    if 0 < channel.receivers then { channel with value := v } else channel

/-- One value to several channels. -/
def sendAll (channels : List (Channel α)) (v : α) (cs : List Nat) : List (Channel α) :=
  cs.foldl (fun channels c => send channels v c) channels

theorem length_sendAll (channels : List (Channel α)) (v : α) (cs : List Nat) :
    (sendAll channels v cs).length = channels.length := by
  induction cs generalizing channels with
  | nil => rfl
  | cons c cs ih => exact (ih (send channels v c)).trans (List.length_modify _ _ _)

/-- The channel is open and has the property. -/
def Holds (P : Channel α → Prop) (channels : List (Channel α)) (c : Nat) : Prop :=
  ∃ channel ∈ channels[c]?, P channel

/-- The channel has a receiver. -/
def Listening : List (Channel α) → Nat → Prop := Holds fun channel => 0 < channel.receivers

/-- What a receiver of the channel reads. -/
def Reads (v : α) : List (Channel α) → Nat → Prop := Holds fun channel => channel.value = v

variable {P : Channel α → Prop} {f : Channel α → Channel α}

theorem Holds.lt_length (h : Holds P channels c) : c < channels.length := by
  obtain ⟨channel, hchannel, -⟩ := h
  exact (List.getElem?_eq_some_iff.mp hchannel).1

theorem Holds.modify (h : Holds P channels d) (hf : c = d → ∀ channel, P channel → P (f channel)) :
    Holds P (channels.modify c f) d := by
  obtain ⟨channel, hchannel, hP⟩ := h
  rw [Option.mem_def] at hchannel
  by_cases hcd : c = d
  · refine ⟨f channel, ?_, hf hcd channel hP⟩
    rw [hcd, Option.mem_def, List.getElem?_modify_eq, hchannel]
    rfl
  · refine ⟨channel, ?_, hP⟩
    rw [Option.mem_def, List.getElem?_modify_ne f channels hcd, hchannel]

theorem Holds.opened (h : Holds P channels d) : Holds P (opened channels v) d := by
  have hlt := h.lt_length
  obtain ⟨channel, hchannel, hP⟩ := h
  refine ⟨channel, ?_, hP⟩
  rw [Option.mem_def, Watch.opened, List.getElem?_append_left hlt]
  exact hchannel

theorem listening_opened (channels : List (Channel α)) (v : α) :
    Listening (opened channels v) channels.length :=
  ⟨⟨v, 1⟩, by simp [opened], Nat.one_pos⟩

theorem Listening.opened (h : Listening channels d) (v : α) : Listening (opened channels v) d :=
  Holds.opened h

theorem Listening.subscribe (h : Listening channels d) (c : Nat) :
    Listening (subscribe channels c) d :=
  Holds.modify h fun _ channel _ => Nat.succ_pos channel.receivers

theorem Listening.unsubscribe (h : Listening channels d) (hne : c ≠ d) :
    Listening (unsubscribe channels c) d :=
  Holds.modify h fun hcd => absurd hcd hne

theorem Listening.send (h : Listening channels d) (v : α) (c : Nat) :
    Listening (send channels v c) d := by
  refine Holds.modify h fun _ channel hpos => ?_
  rw [if_pos hpos]
  exact hpos

theorem Listening.sendAll (h : Listening channels d) (v : α) (cs : List Nat) :
    Listening (sendAll channels v cs) d := by
  induction cs generalizing channels with
  | nil => exact h
  | cons c cs ih => exact ih (h.send v c)

/-! ## What receivers read -/

theorem Reads.opened {w : α} (h : Reads v channels d) : Reads v (opened channels w) d :=
  Holds.opened h

theorem Reads.subscribe (h : Reads v channels d) (c : Nat) : Reads v (subscribe channels c) d :=
  Holds.modify h fun _ _ hv => hv

theorem Reads.unsubscribe (h : Reads v channels d) (c : Nat) :
    Reads v (unsubscribe channels c) d :=
  Holds.modify h fun _ _ hv => hv

theorem Reads.send (h : Reads v channels d) (c : Nat) : Reads v (send channels v c) d := by
  refine Holds.modify h fun _ channel hv => ?_
  split
  · rfl
  · exact hv

theorem Reads.sendAll (h : Reads v channels d) (cs : List Nat) :
    Reads v (sendAll channels v cs) d := by
  induction cs generalizing channels with
  | nil => exact h
  | cons c cs ih => exact ih (h.send c)

theorem reads_send (h : Listening channels c) (v : α) : Reads v (send channels v c) c := by
  obtain ⟨channel, hchannel, hpos⟩ := h
  rw [Option.mem_def] at hchannel
  refine ⟨{ channel with value := v }, ?_, rfl⟩
  rw [Option.mem_def, Watch.send, List.getElem?_modify_eq, hchannel]
  simp [hpos]

/-- Every channel with a receiver to which a value was sent has that value. -/
theorem reads_sendAll {cs : List Nat} (h : Listening channels c) (hc : c ∈ cs) (v : α) :
    Reads v (sendAll channels v cs) c := by
  induction cs generalizing channels with
  | nil => cases hc
  | cons d cs ih =>
    rcases List.mem_cons.mp hc with rfl | hc
    · exact (reads_send h v).sendAll cs
    · exact ih (h.send v d) hc

end Watch
