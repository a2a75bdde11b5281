import Blackglass.Lib.Task

/-!
# What a task does between two jumps

A stretch of a task is what it does from one jump to the next: the transactions it runs and
the frames it sends.  Since other tasks may do anything to the store between its steps, a
stretch finds some store at each transaction, and all that is known of it is what the
surroundings promise.

An observer sees some of the deeds.  `Code.Yields` is the weakest precondition for what an
observer sees (`Code.wp` by recursion on the code); `Code.Yields.stretch` says that it is one, and
`Through.invariant` is the rule for loops.
-/

namespace Task

variable {σ ι φ Λ ο : Type*}

/-- What the surroundings of a task may come up with: the values it takes in, the stores it
finds, and whether it may be dropped. -/
structure Surroundings (σ ι : Type*) where
  input : ι → Prop
  store : σ → Prop
  drops : Prop

inductive Deed (σ φ : Type*) where
  | wrote (before after : σ)
  | sent (frame : φ)

/-- `Stretch env c deeds exit`: the code does `deeds` and then jumps to a label, or stops. -/
inductive Stretch (env : Surroundings σ ι) :
    Code σ ι φ Λ → List (Deed σ φ) → Option Λ → Prop where
  | stop : Stretch env .stop [] none
  | goto (label : Λ) : Stretch env (.goto label) [] (some label)
  | input {k : ι → Code σ ι φ Λ} {i : ι} {deeds : List (Deed σ φ)} {exit : Option Λ} :
      env.input i → Stretch env (k i) deeds exit → Stretch env (.input k) deeds exit
  | transact {write : σ → σ} {k : σ → Code σ ι φ Λ} {w : σ} {deeds : List (Deed σ φ)}
      {exit : Option Λ} : env.store w → Stretch env (k w) deeds exit →
      Stretch env (.transact write k) (.wrote w (write w) :: deeds) exit
  | send {frame : φ} {k : Code σ ι φ Λ} {deeds : List (Deed σ φ)} {exit : Option Λ} :
      Stretch env k deeds exit → Stretch env (.send frame k) (.sent frame :: deeds) exit
  | dropped (c : Code σ ι φ Λ) : env.drops → Stretch env c [] none

/-- A stretch, and those after it as long as the task jumps to labels that are `inner`. -/
inductive Through (env : Surroundings σ ι) (body : Λ → Code σ ι φ Λ) (inner : Λ → Prop) :
    Code σ ι φ Λ → List (Deed σ φ) → Option Λ → Prop where
  | leave {c : Code σ ι φ Λ} {deeds : List (Deed σ φ)} {exit : Option Λ} :
      Stretch env c deeds exit → (∀ label ∈ exit, ¬inner label) →
      Through env body inner c deeds exit
  | enter {c : Code σ ι φ Λ} {deeds deeds' : List (Deed σ φ)} {label : Λ} {exit : Option Λ} :
      Stretch env c deeds (some label) → inner label →
      Through env body inner (body label) deeds' exit →
      Through env body inner c (deeds ++ deeds') exit

variable {env : Surroundings σ ι} {obs : Deed σ φ → Option ο}

namespace Code

/-- What has to hold of the code for what is seen in its stretches, and where they lead, to
satisfy `post`. -/
def wp (env : Surroundings σ ι) (obs : Deed σ φ → Option ο) :
    (List ο → Option Λ → Prop) → Code σ ι φ Λ → Prop
  | post, .stop => post [] none
  | post, .goto label => (env.drops → post [] none) ∧ post [] (some label)
  | post, .input k => (env.drops → post [] none) ∧ ∀ i, env.input i → wp env obs post (k i)
  | post, .transact write k => (env.drops → post [] none) ∧ ∀ w, env.store w →
      wp env obs (fun seen => post ((obs (.wrote w (write w))).toList ++ seen)) (k w)
  | post, .send frame k => (env.drops → post [] none) ∧
      wp env obs (fun seen => post ((obs (.sent frame)).toList ++ seen)) k

/-- In every stretch of the code, what is seen and where it leads satisfy `post`. -/
structure Yields (env : Surroundings σ ι) (obs : Deed σ φ → Option ο)
    (post : List ο → Option Λ → Prop) (c : Code σ ι φ Λ) : Prop where
  wp : c.wp env obs post

variable {post post' : List ο → Option Λ → Prop} {c : Code σ ι φ Λ}

theorem wp_mono (himp : ∀ seen exit, post seen exit → post' seen exit)
    (h : c.wp env obs post) : c.wp env obs post' := by
  induction c generalizing post post' with
  | stop => exact himp _ _ h
  | goto label => exact ⟨fun hdrops => himp _ _ (h.1 hdrops), himp _ _ h.2⟩
  | input k ih => exact ⟨fun hdrops => himp _ _ (h.1 hdrops), fun i hi => ih i himp (h.2 i hi)⟩
  | transact write k ih =>
    exact ⟨fun hdrops => himp _ _ (h.1 hdrops),
      fun w hw => ih w (fun seen => himp (_ ++ seen)) (h.2 w hw)⟩
  | send frame k ih =>
    exact ⟨fun hdrops => himp _ _ (h.1 hdrops), ih (fun seen => himp (_ ++ seen)) h.2⟩

theorem post_of_dropped (h : c.wp env obs post) (hdrops : env.drops) : post [] none := by
  cases c with
  | stop => exact h
  | goto _ | input _ | transact _ _ | send _ _ => exact h.1 hdrops

theorem post_of_stretch (h : c.wp env obs post) {deeds : List (Deed σ φ)} {exit : Option Λ}
    (hstretch : Stretch env c deeds exit) : post (deeds.filterMap obs) exit := by
  have hcons : ∀ (deed : Deed σ φ) (deeds : List (Deed σ φ)),
      (deed :: deeds).filterMap obs = (obs deed).toList ++ deeds.filterMap obs := by
    intro deed deeds
    cases hobs : obs deed <;> simp [hobs]
  induction hstretch generalizing post with
  | stop => exact h
  | goto label => exact h.2
  | input hi _ ih => exact ih (h.2 _ hi)
  | transact hw _ ih =>
    rw [hcons]
    exact ih (h.2 _ hw)
  | send _ ih =>
    rw [hcons]
    exact ih h.2
  | dropped c hdrops => exact post_of_dropped h hdrops

namespace Yields

theorem mono (himp : ∀ seen exit, post seen exit → post' seen exit) (h : Yields env obs post c) :
    Yields env obs post' c :=
  ⟨wp_mono himp h.wp⟩

/-- What the code yields holds of its stretches. -/
theorem stretch (h : Yields env obs post c) {deeds : List (Deed σ φ)} {exit : Option Λ}
    (hstretch : Stretch env c deeds exit) : post (deeds.filterMap obs) exit :=
  post_of_stretch h.wp hstretch

/-! ## Rules -/

theorem stop (h : post [] none) : Yields env obs post (.stop : Code σ ι φ Λ) := ⟨h⟩

theorem goto {label : Λ} (hdrop : env.drops → post [] none) (h : post [] (some label)) :
    Yields env obs post (.goto label : Code σ ι φ Λ) :=
  ⟨hdrop, h⟩

theorem input {k : ι → Code σ ι φ Λ} (hdrop : env.drops → post [] none)
    (h : ∀ i, env.input i → Yields env obs post (k i)) : Yields env obs post (.input k) :=
  ⟨hdrop, fun i hi => (h i hi).wp⟩

theorem transact {write : σ → σ} {k : σ → Code σ ι φ Λ} (hdrop : env.drops → post [] none)
    (h : ∀ w, env.store w →
      Yields env obs (fun seen => post ((obs (.wrote w (write w))).toList ++ seen)) (k w)) :
    Yields env obs post (.transact write k) :=
  ⟨hdrop, fun w hw => (h w hw).wp⟩

/-- A transaction that is not seen. -/
theorem unseen {write : σ → σ} {k : σ → Code σ ι φ Λ} (hdrop : env.drops → post [] none)
    (hobs : ∀ w, obs (.wrote w (write w)) = none)
    (h : ∀ w, env.store w → Yields env obs post (k w)) :
    Yields env obs post (.transact write k) := by
  refine transact hdrop fun w hw => ?_
  rw [hobs w]
  exact h w hw

theorem send {frame : φ} (hdrop : env.drops → post [] none)
    (h : Yields env obs (fun seen => post ((obs (.sent frame)).toList ++ seen)) c) :
    Yields env obs post (.send frame c) :=
  ⟨hdrop, h.wp⟩

/-- A frame that is not seen. -/
theorem sendUnseen {frame : φ} (hdrop : env.drops → post [] none)
    (hobs : obs (.sent frame) = none) (h : Yields env obs post c) :
    Yields env obs post (.send frame c) := by
  refine send hdrop ?_
  rw [hobs]
  exact h

end Yields

end Code

/-! ## Stretches of a task alone -/

/-- The stretch of a task that takes in the same value and finds the same store each time. -/
def Code.play (i : ι) (w : σ) : Code σ ι φ Λ → List (Deed σ φ) × Option Λ
  | .stop => ([], none)
  | .goto label => ([], some label)
  | .input k => (k i).play i w
  | .transact write k => (.wrote w (write w) :: ((k w).play i w).1, ((k w).play i w).2)
  | .send frame k => (.sent frame :: (k.play i w).1, (k.play i w).2)

theorem stretch_play {i : ι} {w : σ} (hi : env.input i) (hw : env.store w) (c : Code σ ι φ Λ) :
    Stretch env c (c.play i w).1 (c.play i w).2 := by
  induction c with
  | stop => exact .stop
  | goto label => exact .goto label
  | input k ih => exact .input hi (ih i)
  | transact write k ih => exact .transact hw (ih w)
  | send frame k ih => exact .send ih

/-! ## Loops -/

section Loops

variable {body : Λ → Code σ ι φ Λ} {inner : Λ → Prop} {post : List ο → Option Λ → Prop}
  {c : Code σ ι φ Λ} {deeds : List (Deed σ φ)} {exit : Option Λ}

/-- What holds when a loop is entered and is kept by its body holds when it is left. -/
theorem Through.invariant (hc : c.Yields env obs post)
    (hbody : ∀ seen label, inner label → post seen (some label) →
      (body label).Yields env obs fun seen' => post (seen ++ seen'))
    (h : Through env body inner c deeds exit) : post (deeds.filterMap obs) exit := by
  induction h generalizing post with
  | leave hstretch _ => exact hc.stretch hstretch
  | enter hstretch hinner _ ih =>
    rw [List.filterMap_append]
    refine ih (hbody _ _ hinner (hc.stretch hstretch)) fun seen' label hlabel hpost => ?_
    refine (hbody _ label hlabel hpost).mono fun seen'' exit hexit => ?_
    rwa [← List.append_assoc]

/-- A loop is left by a jump out of it. -/
theorem Through.not_inner (h : Through env body inner c deeds exit) :
    ∀ label ∈ exit, ¬inner label := by
  induction h with
  | leave _ hexit => exact hexit
  | enter _ _ _ ih => exact ih

end Loops

end Task
