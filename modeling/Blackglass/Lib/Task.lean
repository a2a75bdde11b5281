import Blackglass.Lib.Transition

/-!
# Tasks over a shared store

A task of a server is straight-line code with branches, of a few kinds of steps: it takes a
value from outside (a message, a reading of the clock), it runs a transaction on a store that
other tasks share, it sends a frame.  Loops are jumps to labels, so code need not terminate.
Between any two steps of a task the others may have changed the store.

Three properties of tasks follow from a look at their code.  A task that, for every frame of
data, has had access since the last one sends at most one such frame once access is gone
(`Code.Guarded`, `one_more_frame`).  Two tasks that branch alike, each on a store of its own,
send the same (`Code.Lockstep`, `Code.run_eq`).  A task whose loops come to an end, whatever
comes from outside, sends all there is to send (`Code.Halts`, `Code.Halts.run`); which frames
these are is found step by step (`Code.Sends`).
-/

namespace Task

open Transition

variable {σ ι φ Λ : Type*}

/-- The code of a task: `σ` is the store, `ι` what comes from outside, `φ` the frames. -/
inductive Code (σ ι φ Λ : Type*) where
  | stop
  | goto (label : Λ)
  | input (k : ι → Code σ ι φ Λ)
  /-- A transaction: the store becomes `write` of it, and the task goes on with what it saw. -/
  | transact (write : σ → σ) (k : σ → Code σ ι φ Λ)
  | send (frame : φ) (k : Code σ ι φ Λ)

namespace Code

/-- A transaction that only reads. -/
def read (k : σ → Code σ ι φ Λ) : Code σ ι φ Λ := .transact id k

/-- What code sends when nobody else changes the store, given all that comes from outside;
`none` is a task that has not stopped yet. -/
def run (body : Λ → Code σ ι φ Λ) : Nat → (Nat → ι) → σ → Code σ ι φ Λ → Option (List φ)
  | 0, _, _, _ => none
  | _ + 1, _, _, .stop => some []
  | n + 1, is, w, .goto label => run body n is w (body label)
  | n + 1, is, w, .input k => run body n (fun j => is (j + 1)) w (k (is 0))
  | n + 1, is, w, .transact write k => run body n is (write w) (k w)
  | n + 1, is, w, .send frame k => (run body n is w k).map (frame :: ·)

/-! ## Two tasks that send the same -/

/-- The two codes make the same steps, whatever comes from outside; `same` says of which labels
that is known. -/
def Lockstep (same : Λ → σ → σ → Prop) : σ → σ → Code σ ι φ Λ → Code σ ι φ Λ → Prop
  | _, _, .stop, .stop => True
  | w, w', .goto label, .goto label' => label = label' ∧ same label w w'
  | w, w', .input k, .input k' => ∀ i, Lockstep same w w' (k i) (k' i)
  | w, w', .transact write k, .transact write' k' =>
    Lockstep same (write w) (write' w') (k w) (k' w')
  | w, w', .send frame k, .send frame' k' => frame = frame' ∧ Lockstep same w w' k k'
  | _, _, _, _ => False

theorem run_eq {same : Λ → σ → σ → Prop} {body : Λ → Code σ ι φ Λ}
    (hbody : ∀ label w w', same label w w' → Lockstep same w w' (body label) (body label)) {n : Nat}
    {is : Nat → ι} {w w' : σ} {c c' : Code σ ι φ Λ} (h : Lockstep same w w' c c') :
    run body n is w c = run body n is w' c' := by
  induction n generalizing is w w' c c' with
  | zero => rfl
  | succ n ih =>
    cases c <;> cases c' <;> try exact h.elim
    case stop => rfl
    case goto label label' =>
      obtain ⟨rfl, hsame⟩ := h
      exact ih (hbody label w w' hsame)
    case input k k' => exact ih (h (is 0))
    case transact write k write' k' => exact ih h
    case send frame k frame' k' =>
      obtain ⟨rfl, h⟩ := h
      exact congrArg (Option.map (frame :: ·)) (ih h)

/-! ## Tasks that come to an end -/

/-- The code stops, whatever comes from outside. -/
inductive Halts (body : Λ → Code σ ι φ Λ) : σ → Code σ ι φ Λ → Prop where
  | stop {w : σ} : Halts body w .stop
  | goto {w : σ} {label : Λ} : Halts body w (body label) → Halts body w (.goto label)
  | input {w : σ} {k : ι → Code σ ι φ Λ} : (∀ i, Halts body w (k i)) → Halts body w (.input k)
  | transact {w : σ} {write : σ → σ} {k : σ → Code σ ι φ Λ} :
      Halts body (write w) (k w) → Halts body w (.transact write k)
  | send {w : σ} {frame : φ} {k : Code σ ι φ Λ} : Halts body w k → Halts body w (.send frame k)

theorem Halts.run {body : Λ → Code σ ι φ Λ} {w : σ} {c : Code σ ι φ Λ} (h : Halts body w c)
    (is : Nat → ι) : ∃ n, (run body n is w c).isSome = true := by
  induction h generalizing is with
  | stop => exact ⟨1, rfl⟩
  | goto _ ih =>
    obtain ⟨n, hn⟩ := ih is
    exact ⟨n + 1, hn⟩
  | input _ ih =>
    obtain ⟨n, hn⟩ := ih (is 0) fun j => is (j + 1)
    exact ⟨n + 1, hn⟩
  | transact _ ih =>
    obtain ⟨n, hn⟩ := ih is
    exact ⟨n + 1, hn⟩
  | send _ ih =>
    obtain ⟨n, hn⟩ := ih is
    exact ⟨n + 1, by simpa only [Code.run, Option.isSome_map] using hn⟩

/-- Given enough steps, the code has sent these frames and stopped. -/
def Sends (body : Λ → Code σ ι φ Λ) (is : Nat → ι) (w : σ) (c : Code σ ι φ Λ)
    (frames : List φ) : Prop :=
  ∃ n, ∀ m, n ≤ m → run body m is w c = some frames

namespace Sends

variable {body : Λ → Code σ ι φ Λ} {is is' : Nat → ι} {w w' : σ} {c c' : Code σ ι φ Λ}
  {frames : List φ}

/-- One step, after which the code goes on as `c'`. -/
theorem of_succ {f : List φ → List φ} (h : Sends body is' w' c' frames)
    (hstep : ∀ n, run body (n + 1) is w c = (run body n is' w' c').map f) :
    Sends body is w c (f frames) := by
  obtain ⟨n, hn⟩ := h
  refine ⟨n + 1, fun m hm => ?_⟩
  obtain ⟨k, rfl⟩ := Nat.exists_eq_add_of_le' (Nat.le_of_add_left_le hm)
  rw [hstep, hn k (Nat.le_of_add_le_add_right hm)]
  rfl

theorem stop : Sends body is w .stop [] := by
  refine ⟨1, fun m hm => ?_⟩
  obtain ⟨k, rfl⟩ := Nat.exists_eq_add_of_le' hm
  rfl

theorem goto {label : Λ} (h : Sends body is w (body label) frames) :
    Sends body is w (.goto label) frames :=
  h.of_succ (f := id) fun _ => Option.map_id'.symm

theorem input {k : ι → Code σ ι φ Λ}
    (h : Sends body (fun j => is (j + 1)) w (k (is 0)) frames) :
    Sends body is w (.input k) frames :=
  h.of_succ (f := id) fun _ => Option.map_id'.symm

theorem transact {write : σ → σ} {k : σ → Code σ ι φ Λ}
    (h : Sends body is (write w) (k w) frames) : Sends body is w (.transact write k) frames :=
  h.of_succ (f := id) fun _ => Option.map_id'.symm

theorem read {k : σ → Code σ ι φ Λ} (h : Sends body is w (k w) frames) :
    Sends body is w (.read k) frames :=
  transact h

theorem send {frame : φ} (h : Sends body is w c frames) :
    Sends body is w (.send frame c) (frame :: frames) :=
  h.of_succ fun _ => rfl

/-- The frames are determined. -/
theorem unique {frames' : List φ} (h : Sends body is w c frames)
    (h' : Sends body is w c frames') : frames = frames' := by
  obtain ⟨n, hn⟩ := h
  obtain ⟨m, hm⟩ := h'
  have hboth := (hn (n + m) (Nat.le_add_right n m)).symm.trans (hm (n + m) (Nat.le_add_left m n))
  exact Option.some.inj hboth

end Sends

/-! ## Access before every frame of data -/

section Guarded

variable (access : σ → Prop) (data : φ → Prop) (touches : σ → σ → Prop)

/-- Between any two frames of data the code has had access, and it had before the first one if
`armed` holds of the time up to now.  A transaction that touches the store has access. -/
def Guarded : Prop → Code σ ι φ Λ → Prop
  | _, .stop => True
  | _, .goto _ => True
  | armed, .input k => ∀ i, Guarded armed (k i)
  | armed, .transact write k =>
    ∀ w, (touches w (write w) → access w) ∧ Guarded (armed ∨ access w) (k w)
  | armed, .send frame k => (data frame → armed) ∧ Guarded (armed ∧ ¬data frame) k

variable {access data touches}

theorem Guarded.mono {c : Code σ ι φ Λ} {armed armed' : Prop} (hle : armed → armed')
    (h : Guarded access data touches armed c) : Guarded access data touches armed' c := by
  induction c generalizing armed armed' with
  | stop => trivial
  | goto _ => trivial
  | input k ih => exact fun i => ih i hle (h i)
  | transact write k ih => exact fun w => ⟨(h w).1, ih w (Or.imp_left hle) (h w).2⟩
  | send frame k ih => exact ⟨fun hdata => hle (h.1 hdata), ih (And.imp_left hle) h.2⟩

end Guarded

end Code

/-! ## Interleavings -/

/-- A task among others.  It runs on behalf of somebody, whom its last label names. -/
structure State (σ ι φ Λ κ : Type*) where
  store : σ
  key : κ
  code : Code σ ι φ Λ
  sent : List φ

/-- Whose turn it is. -/
inductive Turn where
  | own
  | other
deriving DecidableEq

section Steps

variable {κ : Type*} {body : Λ → Code σ ι φ Λ} {key : Λ → κ} {others : σ → σ → Prop}

/-- One step: of the task, or of the others, who may do `others` to the store.  The task may be
stopped at any time. -/
inductive Step (body : Λ → Code σ ι φ Λ) (key : Λ → κ) (others : σ → σ → Prop)
    (s : State σ ι φ Λ κ) : Turn → State σ ι φ Λ κ → Prop where
  | other {w : σ} : others s.store w → Step body key others s .other { s with store := w }
  | goto {label : Λ} : s.code = .goto label →
      Step body key others s .own { s with key := key label, code := body label }
  | input {k : ι → Code σ ι φ Λ} (i : ι) : s.code = .input k →
      Step body key others s .own { s with code := k i }
  | transact {write : σ → σ} {k : σ → Code σ ι φ Λ} : s.code = .transact write k →
      Step body key others s .own { s with store := write s.store, code := k s.store }
  | send {frame : φ} {k : Code σ ι φ Λ} : s.code = .send frame k →
      Step body key others s .own { s with sent := s.sent ++ [frame], code := k }
  | stop : Step body key others s .own { s with code := .stop }

/-- A step with what it needs from outside: the task's input, or what the others do. -/
inductive Move (σ ι : Type*) where
  | own (i : ι)
  | other (change : σ → σ)

def Move.turn : Move σ ι → Turn
  | own _ => .own
  | other _ => .other

/-- The step that a move leads to. -/
def State.advance (body : Λ → Code σ ι φ Λ) (key : Λ → κ) (s : State σ ι φ Λ κ) :
    Move σ ι → State σ ι φ Λ κ
  | .other change => { s with store := change s.store }
  | .own i =>
    match s.code with
    | .stop => { s with code := .stop }
    | .goto label => { s with key := key label, code := body label }
    | .input k => { s with code := k i }
    | .transact write k => { s with store := write s.store, code := k s.store }
    | .send frame k => { s with sent := s.sent ++ [frame], code := k }

theorem step_advance (hothers : ∀ w w', others w w') (s : State σ ι φ Λ κ) (move : Move σ ι) :
    Step body key others s move.turn (s.advance body key move) := by
  cases move with
  | other change => exact .other (hothers _ _)
  | own i =>
    unfold State.advance
    simp only
    split
    · exact .stop
    · rename_i hcode
      exact .goto hcode
    · rename_i hcode
      exact .input i hcode
    · rename_i hcode
      exact .transact hcode
    · rename_i hcode
      exact .send hcode

/-- A run of moves, each from a state that meets a condition. -/
theorem run_advance (hothers : ∀ w w', others w w') {guard : State σ ι φ Λ κ → Prop}
    (moves : List (Move σ ι)) {s : State σ ι φ Λ κ}
    (hguard : ∀ n < moves.length, guard ((moves.take n).foldl (State.advance body key) s)) :
    Run (Guarded (fun s _ => guard s) (Step body key others)) s (moves.map Move.turn)
      (moves.foldl (State.advance body key) s) := by
  induction moves generalizing s with
  | nil => exact .nil s
  | cons move moves ih =>
    refine .cons ⟨hguard 0 (Nat.succ_pos _), step_advance hothers s move⟩ (ih fun n hn => ?_)
    exact hguard (n + 1) (Nat.succ_lt_succ hn)

variable {access : κ → σ → Prop} {data : φ → Prop} {touches : σ → σ → Prop}
  {s s' s'' : State σ ι φ Λ κ} {turn : Turn}

/-- The code of every label is guarded, for whom it runs. -/
def GuardedBody (access : κ → σ → Prop) (data : φ → Prop) (touches : σ → σ → Prop)
    (body : Λ → Code σ ι φ Λ) (key : Λ → κ) : Prop :=
  ∀ label, (body label).Guarded (access (key label)) data touches False

/-- The code that a step leaves is guarded. -/
theorem Step.guarded (hbody : GuardedBody access data touches body key)
    (h : Step body key others s turn s') {armed : Prop}
    (hs : s.code.Guarded (access s.key) data touches armed) :
    ∃ armed', s'.code.Guarded (access s'.key) data touches armed' := by
  cases h with
  | other _ => exact ⟨armed, hs⟩
  | goto _ => exact ⟨False, hbody _⟩
  | input i hcode =>
    rw [hcode] at hs
    exact ⟨armed, hs i⟩
  | transact hcode =>
    rw [hcode] at hs
    exact ⟨_, (hs s.store).2⟩
  | send hcode =>
    rw [hcode] at hs
    exact ⟨_, hs.2⟩
  | stop => exact ⟨True, trivial⟩

theorem guarded_of_run (hbody : GuardedBody access data touches body key) {turns : List Turn}
    (hrun : Run (Step body key others) s turns s') {armed : Prop}
    (hs : s.code.Guarded (access s.key) data touches armed) :
    ∃ armed', s'.code.Guarded (access s'.key) data touches armed' :=
  Run.invariant
    (I := fun s : State σ ι φ Λ κ =>
      ∃ armed, s.code.Guarded (access s.key) data touches armed)
    (fun h hstep => hstep.guarded hbody h.choose_spec) ⟨armed, hs⟩ hrun

variable [DecidablePred data]

/-- The number of frames of data among those sent. -/
def State.dataSent (data : φ → Prop) [DecidablePred data] (s : State σ ι φ Λ κ) : Nat :=
  s.sent.countP data

/-- What has been sent since access was lost at a time when `n` frames of data had been: none
while the task is armed, and one at most. -/
def Drained (access : κ → σ → Prop) (data : φ → Prop) [DecidablePred data]
    (touches : σ → σ → Prop) (n : Nat) (s : State σ ι φ Λ κ) : Prop :=
  ∃ armed, s.code.Guarded (access s.key) data touches armed ∧ s.dataSent data ≤ n + 1 ∧
    (armed → s.dataSent data ≤ n)

theorem Drained.step (hbody : GuardedBody access data touches body key) {n : Nat}
    (h : Drained access data touches n s) (hno : ¬access s.key s.store)
    (hstep : Step body key others s turn s') : Drained access data touches n s' := by
  obtain ⟨armed, hs, hle, harmed⟩ := h
  cases hstep with
  | other _ => exact ⟨armed, hs, hle, harmed⟩
  | goto _ => exact ⟨False, hbody _, hle, False.elim⟩
  | input i hcode =>
    rw [hcode] at hs
    exact ⟨armed, hs i, hle, harmed⟩
  | transact hcode =>
    rw [hcode] at hs
    exact ⟨_, (hs s.store).2, hle, fun h => harmed (h.resolve_right hno)⟩
  | @send frame k hcode =>
    rw [hcode] at hs
    have hcount : State.dataSent data { s with sent := s.sent ++ [frame], code := k } =
        s.dataSent data + if data frame then 1 else 0 := by
      simp [State.dataSent, List.countP_append, List.countP_cons]
    by_cases hdata : data frame
    · have := harmed (hs.1 hdata)
      refine ⟨_, hs.2, ?_, fun h => absurd hdata h.2⟩
      rw [hcount, if_pos hdata]
      omega
    · rw [if_neg hdata, Nat.add_zero] at hcount
      exact ⟨_, hs.2, hcount ▸ hle, fun h => hcount ▸ harmed h.1⟩
  | stop => exact ⟨False, trivial, hle, False.elim⟩

/-- Once access is gone, and as long as it is, guarded code sends at most one more frame of
data, and no transaction of it touches the store. -/
theorem one_more_frame (hbody : GuardedBody access data touches body key)
    (hrefl : ∀ w, ¬touches w w) {armed : Prop}
    (hs : s.code.Guarded (access s.key) data touches armed) {turns : List Turn}
    (hrun : Run (Guarded (fun s _ => ¬access s.key s.store) (Step body key others)) s turns s') :
    s'.dataSent data ≤ s.dataSent data + 1 ∧
      (¬access s'.key s'.store → Step body key others s' .own s'' →
        ¬touches s'.store s''.store) := by
  have hstart : Drained access data touches (s.dataSent data) s :=
    ⟨armed, hs, Nat.le_succ _, fun _ => Nat.le_refl _⟩
  obtain ⟨armed', hs', hle, -⟩ :=
    hrun.invariant_of_guard (fun h hno hstep => h.step hbody hno hstep) hstart
  refine ⟨hle, fun hno hstep => ?_⟩
  cases hstep with
  | transact hcode =>
    rw [hcode] at hs'
    exact fun ht => hno ((hs' s'.store).1 ht)
  | goto _ | input _ _ | send _ | stop => exact hrefl _

end Steps

end Task
