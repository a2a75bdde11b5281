import Blackglass.Quota.Reservations
import Blackglass.Quota.Usage

/-!
# Two limits as one

One limit is of all stored bytes, the other of the bytes in the vaults of one owner.  Both are
asked the same questions: how much is stored, how much is reserved, what a commit adds and what
a reservation takes.  A `Scope` is what a limit is about, and each question has one answer for
every scope.
-/

namespace Blackglass

open Outcome Rows

namespace Quota

inductive Scope where
  | all
  /-- The vaults of one user. -/
  | owner (userId : Int)

namespace Scope

def covers : Scope → Int → Bool
  | all, _ => true
  | owner userId, ownerUserId => userId = ownerUserId

/-- What bytes in a vault of an owner count for. -/
def share (scope : Scope) (ownerUserId bytes : Int) : Int :=
  if scope.covers ownerUserId then bytes else 0

def used : Scope → Database → Int
  | all, db => db.usedBytes
  | owner userId, db => db.ownerStoredCiphertextSize userId

def reserved : Scope → StorageReservations → Int
  | all, state => state.reserved
  | owner userId, state => state.reservedForOwner userId

/-- The one of two numbers that a scope is about. -/
def pick : Scope → Int → Int → Int
  | all, ofAll, _ => ofAll
  | owner _, _, ofOwner => ofOwner

def limit (scope : Scope) (config : Config) : Int :=
  scope.pick config.storageQuotaBytes config.storageQuotaBytesPerOwner

variable {scope : Scope} {ownerUserId bytes : Int}

theorem share_of_covers (h : scope.covers ownerUserId = true) :
    scope.share ownerUserId bytes = bytes := if_pos h

theorem share_of_not_covers (h : scope.covers ownerUserId = false) :
    scope.share ownerUserId bytes = 0 := if_neg (by simp [h])

theorem covers_owner_self (ownerUserId : Int) : (owner ownerUserId).covers ownerUserId = true :=
  decide_eq_true rfl

theorem share_nonneg (h : 0 ≤ bytes) : 0 ≤ scope.share ownerUserId bytes := by
  unfold share
  split
  · exact h
  · exact le_rfl

theorem share_zero : scope.share ownerUserId 0 = 0 := ite_self 0

/-! ## Stored bytes -/

variable {db db' : Database} {row : RevisionRow} {content : Option Blob}

theorem used_nonneg (hm : Metered db) : 0 ≤ scope.used db := by
  cases scope with
  | all => exact sumOf_nonneg hm.nonneg
  | owner userId => exact sumOf_nonneg fun r hr => hm.nonneg r (List.mem_of_mem_filter hr)

theorem used_le_of_shrinks (h : Shrinks db db') (hm : Metered db) :
    scope.used db' ≤ scope.used db := by
  cases scope with
  | all => exact h.usedBytes_le hm
  | owner userId => exact h.ownerStored_le hm userId

/-- A commit adds its bytes for the owner of the vault. -/
theorem used_commitRevision (hc : Constraints db) {v : VaultRow} (hv : v ∈ db.vaults)
    (hid : v.id = row.vaultId) :
    scope.used (db.commitRevision row content) =
      scope.used db + scope.share v.ownerUserId row.size := by
  cases scope with
  | all => exact usedBytes_commitRevision row content
  | owner userId =>
    have howns : db.ownsVault userId row.vaultId = (owner userId).covers v.ownerUserId := by
      rw [← hid, Bool.eq_iff_iff, hc.owner_unique hv]
      show _ ↔ decide (userId = v.ownerUserId) = true
      rw [decide_eq_true_eq, eq_comm]
    show (db.commitRevision row content).ownerStoredCiphertextSize userId = _
    rw [ownerStored_commitRevision, howns]
    rfl

/-! ## Reserved bytes -/

variable {state state' : StorageReservations} {r : StorageReservation}

theorem reserved_withReservation :
    scope.reserved (state.withReservation r) =
      scope.reserved state + scope.share r.ownerUserId r.bytes := by
  cases scope with
  | all => rfl
  | owner userId =>
    show (Function.update state.ownerBytes r.ownerUserId _ userId).getD 0 = _
    by_cases hself : userId = r.ownerUserId
    · rw [hself, Function.update_self, share_of_covers (covers_owner_self _)]
      rfl
    · have hother : (owner userId).covers r.ownerUserId = false := decide_eq_false hself
      rw [Function.update_of_ne hself, share_of_not_covers hother, Int.add_zero]
      rfl

/-- A reservation that is part of both sums is taken out of them exactly. -/
theorem reserved_drop (hpos : 0 < r.bytes)
    (hpart : ∀ scope : Scope, scope.share r.ownerUserId r.bytes ≤ scope.reserved state)
    (hmax : ∀ scope : Scope, scope.reserved state ≤ maxI64) :
    scope.reserved (state.drop r) =
      scope.reserved state - scope.share r.ownerUserId r.bytes := by
  have hexact : ∀ x : Int, r.bytes ≤ x → x ≤ maxI64 → saturate (x - r.bytes) = x - r.bytes := by
    intro x hle hx
    refine saturate_of_mem ⟨?_, ?_⟩ <;> omega
  cases scope with
  | all => exact hexact state.globalBytes (hpart all) (hmax all)
  | owner userId =>
    have hown : r.bytes ≤ state.reservedForOwner r.ownerUserId := by
      have hle := hpart (owner r.ownerUserId)
      rwa [share_of_covers (covers_owner_self _)] at hle
    -- something is reserved for the owner, so there is an entry
    obtain ⟨ownerBytes, hentry⟩ : ∃ x, state.ownerBytes r.ownerUserId = some x := by
      cases hentry : state.ownerBytes r.ownerUserId with
      | some x => exact ⟨x, rfl⟩
      | none =>
        rw [StorageReservations.reservedForOwner, hentry] at hown
        exact absurd hpos (not_lt.mpr hown)
    have hvalue : state.reservedForOwner r.ownerUserId = ownerBytes := by
      rw [StorageReservations.reservedForOwner, hentry]
      rfl
    have hbytes : saturate (ownerBytes - r.bytes) = ownerBytes - r.bytes :=
      hexact ownerBytes (hvalue ▸ hown) (hvalue ▸ hmax (owner r.ownerUserId))
    show ((state.drop r).ownerBytes userId).getD 0 = _
    simp only [StorageReservations.drop, hentry, hbytes]
    by_cases hself : userId = r.ownerUserId
    · rw [hself, Function.update_self, share_of_covers (covers_owner_self _)]
      show _ = state.reservedForOwner r.ownerUserId - r.bytes
      rw [hvalue]
      split
      · rename_i hzero
        exact hzero.symm
      · rfl
    · have hother : (owner userId).covers r.ownerUserId = false := decide_eq_false hself
      rw [Function.update_of_ne hself, share_of_not_covers hother, Int.sub_zero]
      rfl

end Scope

/-! ## Making a reservation -/

section

variable {state state' : StorageReservations} {r : StorageReservation}
  {committedGlobal committedOwner ownerUserId additional globalLimit ownerLimit : Int}

/-- An attempt does not overflow, whatever it is given. -/
theorem tryReserve_total (hreserved : ∀ scope : Scope, 0 ≤ scope.reserved state)
    (hglobal : globalLimit ≤ maxI64) (howner : ownerLimit ≤ maxI64) :
    ∃ answer, state.tryReserve committedGlobal committedOwner ownerUserId additional globalLimit
      ownerLimit = .ok answer := by
  by_cases hinvalid : committedGlobal < 0 ∨ committedOwner < 0 ∨ additional ≤ 0 ∨
      globalLimit ≤ 0 ∨ ownerLimit ≤ 0
  · exact ⟨none, if_pos hinvalid⟩
  · simp only [not_or, not_lt, not_le] at hinvalid
    obtain ⟨hg, ho, hadditional, hgl, hol⟩ := hinvalid
    exact ⟨_, StorageReservations.tryReserve_eq hg ho (hreserved .all)
      (hreserved (.owner ownerUserId)) hadditional ⟨hgl, hglobal⟩ ⟨hol, howner⟩⟩

/-- What a reservation that was made says about the numbers it was made from. -/
theorem tryReserve_some (hreserved : ∀ scope : Scope, 0 ≤ scope.reserved state)
    (hglobal : globalLimit ≤ maxI64) (howner : ownerLimit ≤ maxI64)
    (h : state.tryReserve committedGlobal committedOwner ownerUserId additional globalLimit
      ownerLimit = .ok (some (r, state'))) :
    0 < additional ∧ r = ⟨ownerUserId, additional⟩ ∧ state' = state.withReservation r ∧
      ∀ scope : Scope, scope.covers ownerUserId = true →
        scope.pick committedGlobal committedOwner + scope.reserved state + additional ≤
          scope.pick globalLimit ownerLimit := by
  by_cases hinvalid : committedGlobal < 0 ∨ committedOwner < 0 ∨ additional ≤ 0 ∨
      globalLimit ≤ 0 ∨ ownerLimit ≤ 0
  · have hnone : state.tryReserve committedGlobal committedOwner ownerUserId additional globalLimit
        ownerLimit = .ok none := if_pos hinvalid
    cases hnone.symm.trans h
  · simp only [not_or, not_lt, not_le] at hinvalid
    obtain ⟨hg, ho, hadditional, hgl, hol⟩ := hinvalid
    have heq := StorageReservations.tryReserve_eq hg ho (hreserved .all)
      (hreserved (.owner ownerUserId)) hadditional ⟨hgl, hglobal⟩ ⟨hol, howner⟩
    rw [heq, Except.ok.injEq] at h
    split at h
    · rename_i hfits
      obtain ⟨rfl, rfl⟩ := Prod.mk.inj (Option.some.inj h)
      refine ⟨hadditional, rfl, rfl, fun scope hcovers => ?_⟩
      cases scope with
      | all => exact hfits.1
      | owner userId =>
        obtain rfl : userId = ownerUserId := of_decide_eq_true hcovers
        exact hfits.2
    · cases h

end

/-! ## Commits -/

/-- A commit has added bytes to a vault of an owner, within limits unless it added none. -/
structure Added (db db' : Database) (vaultId : String) (ownerUserId bytes globalLimit
    ownerLimit : Int) : Prop where
  owned : db.ownsVault ownerUserId vaultId = true
  nonneg : 0 ≤ bytes
  used : ∀ scope : Scope, scope.used db' = scope.used db + scope.share ownerUserId bytes
  fits : bytes = 0 ∨ ∀ scope : Scope, scope.covers ownerUserId = true →
    scope.used db + bytes ≤ scope.pick globalLimit ownerLimit

section

variable {db db' : Database} {tokenHash : Option String} {userId globalLimit ownerLimit : Int}
  {t : Readings} {answer : Answer}

theorem added_of_checked (row : RevisionRow) (content : Option Blob) (hc : Constraints db)
    (hm : Metered db) (h : CommitChecked db tokenHash userId row.vaultId row.size globalLimit
      ownerLimit t.authorizedAt) :
    ∃ ownerUserId, Added db (db.commitRevision row content) row.vaultId ownerUserId row.size
      globalLimit ownerLimit := by
  obtain ⟨hnonneg, -, -, v, hv, hfits⟩ := enforceStorageQuotas_ok.mp h.quota
  obtain ⟨hmem, hid⟩ := mem_of_vault? hv
  refine ⟨v.ownerUserId, ownsVault_iff.mpr ⟨v, hmem, hid, rfl⟩, hnonneg,
    fun scope => Scope.used_commitRevision hc hmem hid, ?_⟩
  rcases hfits with hzero | ⟨-, -, used, hused, hglobal, howner⟩
  · exact .inl hzero
  · cases hm.counter.symm.trans hused
    refine .inr fun scope hcovers => ?_
    cases scope with
    | all => exact hglobal
    | owner userId =>
      obtain rfl : userId = v.ownerUserId := of_decide_eq_true hcovers
      exact howner

/-- The file of an upload. -/
theorem added_of_upload {revision : NewRevision} {token : String} {file : Blob}
    (he : Effect db t (.addFileRevision revision token file globalLimit ownerLimit) answer db')
    (hc : Constraints db) (hm : Metered db) :
    ∃ ownerUserId, Added db db' revision.vaultId ownerUserId revision.size globalLimit
      ownerLimit := by
  cases he with
  | addFileRevision hok =>
    obtain ⟨hchecked, -, -, -, -, -, -, -, rfl⟩ := addFileRevisionInternal_ok hok
    exact added_of_checked (revision.toRow none t.now) _ hc hm hchecked

/-- The copy that a restore makes, if it finds something to copy. -/
theorem added_of_restore {token vault device : String} {uid : Int}
    (he : Effect db t (.restore userId token vault uid device globalLimit ownerLimit) answer db')
    (hc : Constraints db) (hm : Metered db) :
    db' = db ∨ ∃ ownerUserId bytes,
      Added db db' vault ownerUserId bytes globalLimit ownerLimit := by
  cases he with
  | restore hok =>
    obtain ⟨-, -, rfl⟩ | ⟨target, source, content, hr⟩ := restoreInternal_ok hc hok
    · exact .inl rfl
    · obtain rfl := hr.source_vault
      obtain ⟨ownerUserId, hadded⟩ := added_of_checked
        (source.restored target.path device userId t.now) content hc hm hr.checked
      rw [hr.result]
      exact .inr ⟨ownerUserId, _, hadded⟩

end

end Quota

/-! ## Requests -/

/-- The requests that cannot add bytes. -/
def Request.addsNoBytes : Request → Bool
  | addFileRevision .. | restore .. => false
  | _ => true

namespace Effect

open Quota

variable {db db' : Database} {t : Readings} {request : Request} {answer : Answer}

theorem metered (he : Effect db t request answer db') (hc : Constraints db) (hm : Metered db) :
    Metered db' := by
  cases hadds : request.adds with
  | false => exact (he.shrinks hc hadds).metered hm
  | true =>
    cases he with
    | addEmptyRevision hok =>
      obtain ⟨-, -, hsize, -, -, rfl⟩ := addEmptyRevisionInternal_ok hok
      exact hm.commitRevision _ _ hsize.ge
    | addFileRevision hok =>
      obtain ⟨-, -, -, -, hsize, -, -, -, rfl⟩ := addFileRevisionInternal_ok hok
      exact hm.commitRevision _ _ hsize.le
    | restore hok =>
      obtain ⟨-, -, rfl⟩ | ⟨target, source, content, hr⟩ := restoreInternal_ok hc hok
      · exact hm
      · rw [hr.result]
        exact hm.commitRevision _ _ (hm.nonneg source hr.source_mem)
    | _ => cases hadds

theorem used_le (he : Effect db t request answer db') (hc : Constraints db) (hm : Metered db)
    (hnone : request.addsNoBytes = true) (scope : Scope) : scope.used db' ≤ scope.used db := by
  cases hadds : request.adds with
  | false => exact Scope.used_le_of_shrinks (he.shrinks hc hadds) hm
  | true =>
    cases he with
    | addEmptyRevision hok =>
      rename_i revision _ _ _ _
      obtain ⟨hchecked, -, hsize, -, -, rfl⟩ := addEmptyRevisionInternal_ok hok
      obtain ⟨ownerUserId, hadded⟩ :=
        added_of_checked (revision.toRow none t.now) none hc hm hchecked
      have hzero : (revision.toRow none t.now).size = 0 := hsize
      rw [hadded.used, hzero, Scope.share_zero, Int.add_zero]
    | addFileRevision | restore => cases hnone
    | _ => cases hadds

end Effect

section

open Quota

variable {s s' : Store} {t : Readings} {request : Request}

theorem Store.Step.metered (h : s.Step (request, t) s') (hm : Metered s.db) : Metered s'.db := by
  cases h with
  | commit hok => exact (execute_ok hok).metered s.constraints hm
  | rollback _ => exact hm

theorem Store.Step.used_le (h : s.Step (request, t) s') (hm : Metered s.db)
    (hnone : request.addsNoBytes = true) (scope : Scope) : scope.used s'.db ≤ scope.used s.db := by
  cases h with
  | commit hok => exact (execute_ok hok).used_le s.constraints hm hnone scope
  | rollback _ => exact le_rfl

theorem Store.Step.ownersKept (h : s.Step (request, t) s') :
    OwnersKept request.newVault? s.db s'.db := by
  cases h with
  | commit hok => exact (execute_ok hok).ownersKept s.constraints
  | rollback _ => exact .of_subset (List.Subset.refl _)

/-- Operations on accounts leave what is stored. -/
theorem AccountEffect.shrinks {phc : PhcParser} {db db' : Database} {op : AccountOperation}
    {now : Int} (h : AccountEffect phc db now op db') : Shrinks db db' := by
  rw [h.frame]
  exact .frame rfl rfl rfl

end

end Blackglass
