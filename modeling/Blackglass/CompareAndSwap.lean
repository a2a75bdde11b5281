import Blackglass.History

/-!
# Conditional pushes

A push may name the version it expects its vault to have.  The check is made in the
transaction that inserts the revision, for an upload long after the push was admitted, so
it compares with the version the commit replaces: a conditional push is a compare-and-swap
on the version of the vault.  What makes it one is that versions only grow, because only
commits move them and every commit takes a `uid` above all there ever were (`History`).
-/

namespace Blackglass

open Transition Outcome

/-! ## Transactions with their outcome -/

/-- A request that was executed, and what came of it. -/
structure Transaction where
  request : Request
  t : Readings
  outcome : Except DbError Answer

/-- The revision a transaction has committed. -/
def Transaction.revision? (x : Transaction) : Option Revision :=
  match x.outcome with
  | .ok answer => answer.revision?
  | .error _ => none

/-- The revisions committed in a run. -/
def commits (xs : List Transaction) : List Revision := xs.filterMap Transaction.revision?

/-- A transaction commits, or it fails and is rolled back. -/
inductive Store.Transact (s : Store) : Transaction → Store → Prop where
  | commit {request t answer s'} :
      request.execute s.db t = .ok (answer, s'.db) → Store.Transact s ⟨request, t, .ok answer⟩ s'
  | rollback {request t error} :
      request.execute s.db t = .error error → Store.Transact s ⟨request, t, .error error⟩ s

theorem Store.constraints_of_execute {s : Store} {request : Request} {t : Readings}
    {answer : Answer} {db : Database} (h : request.execute s.db t = .ok (answer, db)) :
    Constraints db :=
  (execute_ok h).constraints s.constraints

/-- Every request can be executed in every state. -/
def Store.transact (s : Store) (request : Request) (t : Readings) : Transaction × Store :=
  match h : request.execute s.db t with
  | .ok (answer, db) =>
    (⟨request, t, .ok answer⟩, ⟨db, Store.constraints_of_execute h⟩)
  | .error error => (⟨request, t, .error error⟩, s)

theorem Store.transact_transact (s : Store) (request : Request) (t : Readings) :
    s.Transact (s.transact request t).1 (s.transact request t).2 := by
  unfold Store.transact
  split
  · rename_i h
    exact .commit h
  · rename_i h
    exact .rollback h

/-- Transactions that take no vault away. -/
abbrev Store.TransactKept : Store → Transaction → Store → Prop :=
  Guarded (fun _ x => x.request.keepsVaults = true) Store.Transact

namespace Request

/-- The revision a push asks for. -/
def push? : Request → Option NewRevision
  | addEmptyRevision revision .. | addFileRevision revision .. => some revision
  | _ => none

/-- `request` is a push to `vault` that expects the version `e`. -/
def Expects (request : Request) (vault : String) (e : Int) : Prop :=
  ∃ revision, request.push? = some revision ∧ revision.vaultId = vault ∧
    revision.expectedVersion = some e

end Request

theorem keepsVaults_of_push {request : Request} {revision : NewRevision}
    (h : request.push? = some revision) : request.keepsVaults = true := by
  cases request <;> first | rfl | cases h

section

variable {db db' : Database} {t : Readings} {request : Request} {answer : Answer} {r : Revision}
  {s s' : Store} {x : Transaction} {log : List Revision} {as : List Transaction}

/-! ## One transaction -/

theorem currentVersion_of_checkExpectedVersion {revision : NewRevision} {e : Int}
    (h : db.checkExpectedVersion revision = .ok ()) (he : revision.expectedVersion = some e) :
    db.currentVersion revision.vaultId = e := by
  obtain ⟨-, v, hv, hversion⟩ := checkExpectedVersion_ok h e he
  rw [Database.currentVersion, hv]
  exact hversion

/-- A push that commits has found the version it expects. -/
theorem Effect.currentVersion_of_push {revision : NewRevision}
    (h : Effect db t request answer db') (hpush : request.push? = some revision) :
    (∃ r, answer.revision? = some r ∧ r.vaultId = revision.vaultId) ∧
      ∀ e, revision.expectedVersion = some e → db.currentVersion revision.vaultId = e := by
  cases h with
  | addEmptyRevision hok =>
    cases hpush
    obtain ⟨-, hcheck, -, -, rfl, -⟩ := addEmptyRevisionInternal_ok hok
    exact ⟨⟨_, rfl, rfl⟩, fun e he => currentVersion_of_checkExpectedVersion hcheck he⟩
  | addFileRevision hok =>
    cases hpush
    obtain ⟨-, hcheck, -, -, -, -, -, rfl, -⟩ := addFileRevisionInternal_ok hok
    exact ⟨⟨_, rfl, rfl⟩, fun e he => currentVersion_of_checkExpectedVersion hcheck he⟩
  | _ => cases hpush

theorem checkExpectedVersion_conflict {revision : NewRevision}
    (h : db.checkExpectedVersion revision = .error .conditionalWriteConflict) :
    ∃ e, revision.expectedVersion = some e ∧ db.currentVersion revision.vaultId ≠ e := by
  cases he : revision.expectedVersion with
  | none =>
    rw [Database.checkExpectedVersion, he] at h
    cases h
  | some e =>
    simp only [Database.checkExpectedVersion, he, bind_eq_error, rejectIf_eq_error,
      orReject_eq_error, orReject_eq_ok, reduceCtorEq, and_false, false_or] at h
    obtain ⟨-, -, v, hv, hne, -⟩ := h
    refine ⟨e, rfl, ?_⟩
    rw [Database.currentVersion, hv]
    exact hne

theorem authorizeMutation_ne_conflict {tokenHash : Option String} {userId now : Int}
    {vaultId : String} :
    db.authorizeMutation tokenHash userId vaultId now ≠ .error .conditionalWriteConflict := by
  simp [Database.authorizeMutation, Database.authorizeAccountMutation, bind_eq_error]

theorem enforceStorageQuotas_ne_conflict {vaultId : String} {size globalLimit ownerLimit : Int} :
    db.enforceStorageQuotas vaultId size globalLimit ownerLimit ≠
      .error .conditionalWriteConflict := by
  intro h
  simp only [Database.enforceStorageQuotas, Database.storedCiphertextSize, bind_eq_error,
    rejectIf_eq_error, orReject_eq_error, reduceCtorEq, and_false, false_or] at h
  obtain ⟨-, -, v, -, h⟩ := h
  split at h
  · cases h
  · simp [bind_eq_error] at h

/-- Only the version check of a push reports a conflict. -/
theorem execute_conflict {revision : NewRevision} (hpush : request.push? = some revision)
    (h : request.execute db t = .error .conditionalWriteConflict) :
    db.checkExpectedVersion revision = .error .conditionalWriteConflict := by
  cases request with
  | addEmptyRevision _ _ _ _ =>
    cases hpush
    simp only [Request.execute, Database.addEmptyRevisionInternal, Database.addRevision,
      Database.insertRevision, bind_eq_error, rejectIf_eq_error, orReject_eq_error,
      pure_ne_error, authorizeMutation_ne_conflict, enforceStorageQuotas_ne_conflict,
      reduceCtorEq, and_false, false_or, or_false, exists_false] at h
    obtain ⟨-, -, -, -, h⟩ := h
    exact h
  | addFileRevision _ _ _ _ _ =>
    cases hpush
    simp only [Request.execute, Database.addFileRevisionInternal, Database.insertRevision,
      Database.insertRevisionContent, Database.copyInto, bind_eq_error, rejectIf_eq_error,
      orReject_eq_error, pure_ne_error, authorizeMutation_ne_conflict,
      enforceStorageQuotas_ne_conflict, reduceCtorEq, and_false, false_or, or_false,
      exists_false] at h
    obtain ⟨-, -, -, -, h⟩ := h
    exact h
  | _ => cases hpush

/-- A commit is the new version of its vault. -/
theorem Change.currentVersion_of_commit {purges : Bool} (h : Change db purges (some r) db') :
    db'.currentVersion r.vaultId = r.uid := by
  cases h with
  | commit hvault _ => exact (currentVersion_commitRevision _ _ hvault).trans (if_pos rfl)

theorem History.currentVersion_lt {purges : Bool} (h : History db log)
    (hchange : Change db purges (some r) db') (id : String) : db.currentVersion id < r.uid := by
  cases hchange with
  | commit _ _ => exact (h.sequence id).trans_lt (getD_lt_nextRowid _ _)

theorem Store.Transact.change (h : s.Transact x s') (hkeeps : x.request.keepsVaults = true) :
    ∃ purges, Change s.db purges x.revision? s'.db := by
  cases h with
  | commit hok => exact ⟨_, (execute_ok hok).change s.constraints hkeeps⟩
  | rollback _ => exact ⟨false, .refl _⟩

/-- A conditional push that committed. -/
theorem Store.Transact.swap (h : s.Transact x s') (hhistory : History s.db log) {vault : String}
    {e : Int} (hexpects : x.request.Expects vault e) (hr : x.revision? = some r) :
    r.vaultId = vault ∧ s.db.currentVersion vault = e ∧ s'.db.currentVersion vault = r.uid ∧
      e < r.uid := by
  obtain ⟨revision, hpush, rfl, he⟩ := hexpects
  cases h with
  | rollback _ => cases hr
  | commit hok =>
    have heffect := execute_ok hok
    obtain ⟨⟨r', hr', hvault⟩, hversion⟩ := heffect.currentVersion_of_push hpush
    obtain rfl : r' = r := Option.some.inj (hr'.symm.trans hr)
    have hkeeps : Request.keepsVaults _ = true := keepsVaults_of_push hpush
    have hchange := heffect.change s.constraints hkeeps
    rw [hr'] at hchange
    refine ⟨hvault, hversion e he, ?_, ?_⟩
    · rw [← hvault]
      exact hchange.currentVersion_of_commit
    · rw [← hversion e he]
      exact hhistory.currentVersion_lt hchange _

/-! ## Runs -/

theorem commits_append (xs ys : List Transaction) : commits (xs ++ ys) = commits xs ++ commits ys :=
  List.filterMap_append

theorem commits_cons (x : Transaction) (xs : List Transaction) :
    commits (x :: xs) = x.revision?.toList ++ commits xs := by
  cases h : x.revision? <;> simp [commits, h]

theorem History.run (h : History s.db log) (hrun : Run Store.TransactKept s as s') :
    History s'.db (log ++ commits as) := by
  induction hrun generalizing log with
  | nil => simpa [commits] using h
  | @cons s₀ _ _ x _ hstep _ ih =>
    obtain ⟨purges, hchange⟩ := hstep.2.change hstep.1
    have hnext := ih (h.change s₀.constraints hchange)
    rw [List.append_assoc, ← commits_cons] at hnext
    exact hnext

/-- What a run of transactions does to a vault on which some pushes are conditional. -/
structure Swapping (log : List Revision) (s : Store) (as : List Transaction) (s' : Store) :
    Prop where
  /-- A conditional push replaces the version it expects, and nothing is ever between. -/
  swaps : ∀ before x after vault e r, as = before ++ x :: after → x.request.Expects vault e →
    x.revision? = some r → r.vaultId = vault ∧ e < r.uid ∧
      (∀ y ∈ log ++ commits as, y.vaultId = vault → ¬(e < y.uid ∧ y.uid < r.uid)) ∧
      ∃ s₁ s₂, Run Store.TransactKept s before s₁ ∧ s₁.Transact x s₂ ∧
        Run Store.TransactKept s₂ after s' ∧ s₁.db.currentVersion vault = e ∧
        s₂.db.currentVersion vault = r.uid
  /-- No two that commit expect the same version of a vault. -/
  once : ∀ before x middle y after vault e, as = before ++ x :: (middle ++ y :: after) →
    x.request.Expects vault e → x.revision?.isSome → y.request.Expects vault e →
    y.revision? = none
  /-- A push that meets a conflict changes nothing, and it did not find the version it
  expects. -/
  conflicts : ∀ before x after revision, as = before ++ x :: after →
    x.request.push? = some revision → x.outcome = .error .conditionalWriteConflict →
      ∃ s₁ e, Run Store.TransactKept s before s₁ ∧ s₁.Transact x s₁ ∧
        Run Store.TransactKept s₁ after s' ∧ revision.expectedVersion = some e ∧
        s₁.db.currentVersion revision.vaultId ≠ e

/-- Conditional pushes are compare-and-swaps on the version of their vault. -/
theorem swapping_of_run (hhistory : History s.db log) (hrun : Run Store.TransactKept s as s') :
    Swapping log s as s' where
  swaps := by
    rintro before x after vault e r rfl hexpects hr
    obtain ⟨s₁, s₂, hbefore, hstep, hafter⟩ := hrun.split_cons
    have h₁ := hhistory.run hbefore
    obtain ⟨hvault, hversion, hversion', hlt⟩ := hstep.2.swap h₁ hexpects hr
    refine ⟨hvault, hlt, fun y hy hyvault hbetween => ?_, s₁, s₂, hbefore, hstep.2, hafter,
      hversion, hversion'⟩
    have hlog : log ++ commits (before ++ x :: after) =
        log ++ commits before ++ r :: commits after := by
      rw [commits_append, commits_cons, hr, List.append_assoc]
      rfl
    have hsorted := (hhistory.run hrun).sorted
    rw [hlog] at hy hsorted
    rcases List.mem_append.mp hy with hy | hy
    · -- what came before is not above the version that was replaced
      have hle := h₁.version y hy
      rw [hyvault, hversion] at hle
      exact absurd hbetween.1 (not_lt.mpr hle)
    · rcases List.mem_cons.mp hy with rfl | hy
      · exact lt_irrefl _ hbetween.2
      · have hnewer := List.rel_of_pairwise_cons (List.pairwise_append.mp hsorted).2.1 hy
        exact absurd hbetween.2 (not_lt.mpr hnewer.le)
  once := by
    rintro before x middle y after vault e rfl hx hcommitted hy
    obtain ⟨r, hr⟩ := Option.isSome_iff_exists.mp hcommitted
    obtain ⟨s₁, s₂, hbefore, hstep, hrest⟩ := hrun.split_cons
    obtain ⟨s₃, s₄, hmiddle, hstep', -⟩ := hrest.split_cons
    have h₁ := hhistory.run hbefore
    obtain ⟨hvault, -, -, hlt⟩ := hstep.2.swap h₁ hx hr
    have h₃ := hhistory.run (hbefore.append (.cons hstep hmiddle))
    by_contra hne
    obtain ⟨r', hr'⟩ := Option.ne_none_iff_exists'.mp hne
    obtain ⟨-, hversion, -, -⟩ := hstep'.2.swap h₃ hy hr'
    -- the first one is in the history of the second, so the version is past `e`
    have hmem : r ∈ log ++ commits (before ++ x :: middle) := by
      rw [commits_append, commits_cons, hr]
      simp
    have hle := h₃.version r hmem
    rw [hvault, hversion] at hle
    exact absurd hlt (not_lt.mpr hle)
  conflicts := by
    rintro before x after revision rfl hpush hconflict
    obtain ⟨s₁, s₂, hbefore, ⟨-, hstep⟩, hafter⟩ := hrun.split_cons
    cases hstep with
    | commit _ => cases hconflict
    | rollback herror =>
      cases hconflict
      obtain ⟨e, he, hne⟩ := checkExpectedVersion_conflict (execute_conflict hpush herror)
      exact ⟨s₁, e, hbefore, .rollback herror, hafter, he, hne⟩

end

/-- A client deletes a note, if its vault has the version `e`. -/
def conditionalDelete (e : Int) : Request :=
  .addEmptyRevision { notePush true 0 0 with expectedVersion := some e } someTokenHash 10 10

/-- Two clients push on version 0; the one that comes second has to catch up, and pushes
again on version 1. -/
theorem swapping_of_race :
    let x₁ := personalStore.transact (conditionalDelete 0) ⟨500, 500⟩
    let x₂ := x₁.2.transact (conditionalDelete 0) ⟨500, 500⟩
    let x₃ := x₂.2.transact (conditionalDelete 1) ⟨500, 500⟩
    Swapping personalStore.db.history personalStore [x₁.1, x₂.1, x₃.1] x₃.2 ∧
      (commits [x₁.1, x₂.1, x₃.1]).map (·.uid) = [1, 2] ∧
      x₂.1.outcome = .error .conditionalWriteConflict := by
  intro x₁ x₂ x₃
  have hverify : Database.verifyConnection onePhc personalStore.db 500 = .ok () := by
    decide +kernel
  have hhistory := (LogicalInvariants.of_verifyConnection hverify).history personalStore.constraints
  refine ⟨swapping_of_run hhistory ?_, by decide +kernel, by decide +kernel⟩
  have hkept : ∀ (s : Store) (e : Int), s.TransactKept
      (s.transact (conditionalDelete e) ⟨500, 500⟩).1
      (s.transact (conditionalDelete e) ⟨500, 500⟩).2 := by
    intro s e
    refine ⟨?_, s.transact_transact _ _⟩
    unfold Store.transact
    split <;> rfl
  exact .cons (hkept _ 0) (.cons (hkept _ 0) (.cons (hkept _ 1) (.nil _)))

end Blackglass
