import Blackglass.Publication
import Blackglass.Quota.Admission

/-!
# Commits of admitted uploads

The invariant of `Admission` is kept by every step, so the accounts of both limits are within
them at all times; whoever holds a reservation can commit (`reserved_uploads_fit`).
-/

namespace Blackglass

open Rows Outcome Transition Json

namespace Quota

namespace Admission

variable {C : Type*} [Fintype C] [DecidableEq C]

section

variable {phc : PhcParser} {config : Config} {s s' : State C} {a : Action C} {c : C} {p : Pending}
  {scope : Scope}

/-! ## What every step keeps -/

omit [Fintype C] [DecidableEq C] in
/-- What a holder has read outlasts what others do without the lock. -/
theorem Holder.Sees.mono {holder : Holder C} (h : holder.Sees s)
    (hused : ∀ scope : Scope, scope.used s'.store.db ≤ scope.used s.store.db)
    (hreserved : ∀ scope : Scope, scope.reserved s'.reservations ≤ scope.reserved s.reservations)
    (hsame : ∀ c, holder.connection? = some c →
      s'.pending c = s.pending c ∧ s'.connections c = s.connections c) : holder.Sees s' := by
  have hawaits : ∀ {c : C} {revision : NewRevision}, holder.connection? = some c →
      s.Awaits c revision → s'.Awaits c revision := by
    intro c revision hholder hs
    obtain ⟨hpending, hconnections⟩ := hsame c hholder
    rw [State.Awaits, hpending, hconnections]
    exact hs
  cases holder with
  | stored c revision => exact hawaits rfl h
  | storedForOwner c revision committedGlobal =>
    exact ⟨hawaits rfl h.1, (hused .all).trans h.2⟩
  | reserve c revision committedGlobal committedOwner =>
    refine ⟨hawaits rfl h.1, fun connection hconnection scope hcovers => ?_⟩
    rw [(hsame c rfl).2] at hconnection
    exact (hused scope).trans (h.2 connection hconnection scope hcovers)
  | commit c file | drop c =>
    show (s'.pending c).isSome = true
    rw [(hsame c rfl).1]
    exact h
  | reservedForOwner c v reservedGlobal => exact (hreserved .all).trans h
  | restore c v reservedGlobal reservedOwner =>
    intro connection hconnection scope hcovers
    rw [(hsame c rfl).2] at hconnection
    exact (hreserved scope).trans (h connection hconnection scope hcovers)
  | request r => exact h
  | reserved c v | finished => trivial

theorem Owned.kept {db db' : Database} {used : List String} {connection : Connection}
    {new : Option String} (h : Owned db used connection) (hkept : OwnersKept new db db')
    (hfresh : ∀ id ∈ new, id ∉ used) : Owned db' (new.toList ++ used) connection := by
  refine ⟨List.mem_append_right _ h.used, fun v' hv' hid => ?_⟩
  rcases hkept v' hv' with hnew | ⟨v, hv, hvid, howner⟩
  · exact absurd h.used (hfresh _ (hid ▸ hnew))
  · rw [← howner]
    exact h.owner v hv (hvid.trans hid)

omit [Fintype C] in
theorem of_update_eq_some {α : Type*} {f : C → Option α} {x : Option α} {y : α} {c c' : C}
    (h : Function.update f c x c' = some y) :
    (c' = c ∧ x = some y) ∨ (c' ≠ c ∧ f c' = some y) := by
  by_cases hc : c' = c
  · rw [hc, Function.update_self] at h
    exact .inl ⟨hc, h⟩
  · rw [Function.update_of_ne hc] at h
    exact .inr ⟨hc, h⟩

namespace Sound

/-- A transaction that creates at most one vault, with a new id. -/
theorem moved (h : Sound config s) (new : Option String) {store' : Store}
    {lock : Option (Holder C)} (hmetered : Metered store'.db)
    (hkept : OwnersKept new s.store.db store'.db) (hfresh : ∀ id ∈ new, id ∉ s.used)
    (hwithin : ∀ scope : Scope, (State.account { s with
      store := store', lock := lock, used := new.toList ++ s.used } scope).Within
        (scope.limit config))
    (hsees : ∀ holder, lock = some holder → holder.Sees { s with
      store := store', lock := lock, used := new.toList ++ s.used }) :
    Sound config { s with store := store', lock := lock, used := new.toList ++ s.used } where
  metered := hmetered
  known v' hv' := by
    rcases hkept v' hv' with hnew | ⟨v, hv, hid, -⟩
    · exact List.mem_append_left _ (Option.mem_toList.mpr hnew)
    · exact List.mem_append_right _ (hid ▸ h.known v hv)
  owned c connection hconnection := (h.owned c connection hconnection).kept hkept hfresh
  pending := h.pending
  totals := h.totals
  bounded := h.bounded
  within := hwithin
  sees := hsees

/-- The lock has a holder, who has read what it knows in this state. -/
theorem holding (h : Sound config s) (holder : Holder C) (hsees : holder.Sees s)
    (hwithin : ∀ scope : Scope,
      (State.account { s with lock := some holder } scope).Within (scope.limit config)) :
    Sound config { s with lock := some holder } where
  metered := h.metered
  known := h.known
  owned := h.owned
  pending := h.pending
  totals := h.totals
  bounded := h.bounded
  within := hwithin
  sees holder' heq := by
    cases heq
    exact hsees

theorem connected (h : Sound config s) {session : Session} {ownerUserId : Int}
    (hidle : s.pending c = none) (hfree : s.Free c)
    (hvault : s.store.db.vaultOwnerUserId session.vault = some ownerUserId) :
    Sound config { s with
      connections := Function.update s.connections c (some ⟨session, ownerUserId⟩) } where
  metered := h.metered
  known := h.known
  owned c' connection hconnection := by
    rcases of_update_eq_some hconnection with ⟨-, hnew⟩ | ⟨-, hold⟩
    · cases hnew
      obtain ⟨v, hv, rfl⟩ := Option.map_eq_some_iff.mp hvault
      obtain ⟨hmem, hid⟩ := mem_of_vault? hv
      refine ⟨hid ▸ h.known v hmem, fun w hw hwid => ?_⟩
      rw [s.store.constraints.eq_of_vaultId hw hmem (hwid.trans hid.symm)]
    · exact h.owned c' connection hold
  pending c' p hp := by
    have hc : c' ≠ c := by
      rintro rfl
      cases hidle.symm.trans hp
    obtain ⟨connection, hconnection, hholds⟩ := h.pending c' p hp
    exact ⟨connection, (Function.update_of_ne hc _ _).trans hconnection, hholds⟩
  totals := h.totals
  bounded := h.bounded
  within := h.within
  sees holder hlock := by
    refine (h.sees holder hlock).mono (fun _ => le_rfl) (fun _ => le_rfl) fun c' hholder => ?_
    have hc : c' ≠ c := by
      rintro rfl
      exact hfree (Option.bind_eq_some_iff.mpr ⟨holder, hlock, hholder⟩)
    exact ⟨rfl, Function.update_of_ne hc _ _⟩

/-- An upload has let go of its reservation. -/
theorem dropped (h : Sound config s) (hp : s.pending c = some p) {lock : Option (Holder C)}
    (hwithin : ∀ scope : Scope, (State.account { s with
      reservations := s.reservations.drop p.storageReservation
      pending := Function.update s.pending c none
      lock := lock } scope).Within (scope.limit config))
    (hsees : ∀ holder, lock = some holder → holder.Sees { s with
      reservations := s.reservations.drop p.storageReservation
      pending := Function.update s.pending c none
      lock := lock }) :
    Sound config { s with
      reservations := s.reservations.drop p.storageReservation
      pending := Function.update s.pending c none
      lock := lock } where
  metered := h.metered
  known := h.known
  owned := h.owned
  pending c' p' hp' := by
    rcases of_update_eq_some hp' with ⟨-, hnone⟩ | ⟨-, hold⟩
    · cases hnone
    · exact h.pending c' p' hold
  totals scope := by
    rw [h.reserved_drop hp, h.totals, Budget.sum_update (heldOf scope) s.pending c none]
    exact (Int.add_zero _).symm
  bounded scope := by
    rw [h.reserved_drop hp]
    exact (Int.sub_le_self _ (h.heldOf_nonneg scope c)).trans (h.bounded scope)
  within := hwithin
  sees := hsees

/-- An upload has been let in. -/
theorem admitted (h : Sound config s) {connection : Connection} {revision : NewRevision}
    (hpos : 0 < revision.size) (hawaits : s.Awaits c revision)
    (hconnection : s.connections c = some connection)
    (hmax : ∀ scope : Scope, scope.covers connection.vaultOwnerUserId = true →
      scope.reserved s.reservations + revision.size ≤ maxI64)
    (hwithin : ∀ scope : Scope, (State.account { s with
      reservations := s.reservations.withReservation ⟨connection.vaultOwnerUserId, revision.size⟩
      pending := Function.update s.pending c
        (some ⟨revision, ⟨connection.vaultOwnerUserId, revision.size⟩⟩)
      lock := some .finished } scope).Within (scope.limit config)) :
    Sound config { s with
      reservations := s.reservations.withReservation ⟨connection.vaultOwnerUserId, revision.size⟩
      pending := Function.update s.pending c
        (some ⟨revision, ⟨connection.vaultOwnerUserId, revision.size⟩⟩)
      lock := some .finished } where
  metered := h.metered
  known := h.known
  owned := h.owned
  pending c' p' hp' := by
    rcases of_update_eq_some hp' with ⟨rfl, hnew⟩ | ⟨-, hold⟩
    · cases hnew
      obtain ⟨-, connection', hconnection', hvault⟩ := hawaits
      cases hconnection.symm.trans hconnection'
      exact ⟨connection, hconnection, hpos, hvault, rfl⟩
    · exact h.pending c' p' hold
  totals scope := by
    rw [Scope.reserved_withReservation, h.totals, Budget.sum_update (heldOf scope), hawaits.1]
    exact congrArg (· + _) (Int.sub_zero _).symm
  bounded scope := by
    rw [Scope.reserved_withReservation]
    cases hcovers : scope.covers connection.vaultOwnerUserId with
    | true =>
      rw [Scope.share_of_covers hcovers]
      exact hmax scope hcovers
    | false =>
      rw [Scope.share_of_not_covers hcovers, Int.add_zero]
      exact h.bounded scope
  within := hwithin
  sees holder hlock := by
    cases hlock
    trivial

end Sound

theorem Sound.step (hglobal : config.storageQuotaBytes ≤ maxI64)
    (howner : config.storageQuotaBytesPerOwner ≤ maxI64) (h : Sound config s)
    (hstep : Step phc config s a s') : Sound config s' := by
  have hwithin : ∀ scope : Scope, (s'.account scope).Within (scope.limit config) := by
    intro scope
    rcases hstep.refines hglobal howner h scope with hsame | hmove
    · rw [hsame]
      exact h.within scope
    · exact (h.within scope).step hmove
  cases hstep with
  | connect hidle hfree hvault => exact h.connected hidle hfree hvault
  | pushEmpty _ _ _ hmetadata => exact h.holding _ (addsNoBytes_pushRequest hmetadata) hwithin
  | @pushFile c connection v revision _ hconnection hpush _ =>
    have hidle : (s.pending c).isSome = false := (beginPush_ok hpush).1
    have hawaits : s.Awaits c revision :=
      ⟨Option.not_isSome_iff_eq_none.mp (Bool.eq_false_iff.mp hidle), connection, hconnection,
        (DataPlane.beginPush_own hpush).1⟩
    exact h.holding _ hawaits hwithin
  | stored hlock hread =>
    rw [Database.storedCiphertextSize, h.metered.counter] at hread
    exact h.holding _ ⟨h.sees _ hlock, (Except.ok.inj hread).le⟩ hwithin
  | @storedForOwner c connection revision committedGlobal hlock hconnection =>
    obtain ⟨hawaits, hread⟩ : (Holder.storedForOwner c revision committedGlobal).Sees s :=
      h.sees _ hlock
    refine h.holding _ ⟨hawaits, fun connection' hconnection' scope hcovers => ?_⟩ hwithin
    cases hconnection.symm.trans hconnection'
    cases scope with
    | all => exact hread
    | owner userId =>
      obtain rfl : userId = connection.vaultOwnerUserId := of_decide_eq_true hcovers
      exact le_rfl
  | @reserve c connection revision committedGlobal committedOwner reservation reservations hlock
      hconnection htry =>
      obtain ⟨hawaits, hread⟩ :
        (Holder.reserve c revision committedGlobal committedOwner).Sees s := h.sees _ hlock
      obtain ⟨hpos, rfl, rfl, hfits⟩ := tryReserve_some h.reserved_nonneg hglobal howner htry
      refine h.admitted hpos hawaits hconnection (fun scope hcovers => ?_) hwithin
      have hused : 0 ≤ scope.used s.store.db := Scope.used_nonneg h.metered
      have hcommitted := hread connection hconnection scope hcovers
      have hfree := hfits scope hcovers
      have hlimit : scope.pick config.storageQuotaBytes config.storageQuotaBytesPerOwner ≤
          maxI64 := by
        cases scope with
        | all => exact hglobal
        | owner userId => exact howner
      omega
  | refuse _ _ _ => exact h.holding _ trivial hwithin
  | finish file _ hp =>
    exact h.holding (.commit _ file) (Option.isSome_iff_exists.mpr ⟨_, hp⟩) hwithin
  | commit _ _ hp hstore =>
    refine h.moved none (hstore.metered h.metered) hstore.ownersKept (by simp) hwithin
      fun holder hholder => ?_
    cases hholder
    exact Option.isSome_iff_exists.mpr ⟨_, hp⟩
  | @busy c file hlock =>
    have hpending : (Holder.commit c file).Sees s := h.sees _ hlock
    exact h.holding (.drop c) hpending hwithin
  | drop _ hp =>
    refine h.dropped hp hwithin fun holder hholder => ?_
    cases hholder
    trivial
  | @abandon c p hp hfree =>
    refine h.dropped hp hwithin fun holder hlock => ?_
    refine (h.sees holder hlock).mono (fun _ => le_rfl) (fun scope => ?_) fun c' hholder => ?_
    · rw [h.reserved_drop hp]
      exact Int.sub_le_self _ (h.heldOf_nonneg scope c)
    · have hc : c' ≠ c := by
        rintro rfl
        exact hfree (Option.bind_eq_some_iff.mpr ⟨holder, hlock, hholder⟩)
      exact ⟨Function.update_of_ne hc _ _, rfl⟩
  | restore _ => exact h.holding _ trivial hwithin
  | reserved _ => exact h.holding (.reservedForOwner _ _ _) le_rfl hwithin
  | @reservedForOwner c connection v reservedGlobal hlock hconnection =>
    have hread : s.reservations.reserved ≤ reservedGlobal := h.sees _ hlock
    refine h.holding _ (fun connection' hconnection' scope hcovers => ?_) hwithin
    cases hconnection.symm.trans hconnection'
    cases scope with
    | all => exact hread
    | owner userId =>
      obtain rfl : userId = connection.vaultOwnerUserId := of_decide_eq_true hcovers
      exact le_rfl
  | restoreRevision _ _ hrequest hstore =>
    obtain ⟨uid, rfl⟩ := restore_ok hrequest
    refine h.moved none (hstore.metered h.metered) hstore.ownersKept (by simp) hwithin
      fun holder hholder => ?_
    cases hholder
    trivial
  | lock _ hadds _ => exact h.holding _ (addsNoBytes_of_adds hadds) hwithin
  | transact _ hfresh hstore =>
    refine h.moved _ (hstore.metered h.metered) hstore.ownersKept hfresh hwithin
      fun holder hholder => ?_
    cases hholder
    trivial
  | unlock _ _ =>
    refine { h with within := hwithin, sees := fun holder hholder => ?_ }
    cases hholder
  | unlocked hadds hfresh hstore =>
    refine h.moved _ (hstore.metered h.metered) hstore.ownersKept hfresh hwithin
      fun holder hlock => ?_
    exact (h.sees holder hlock).mono
      (hstore.used_le h.metered (addsNoBytes_of_adds hadds)) (fun _ => le_rfl)
      fun _ _ => ⟨rfl, rfl⟩
  | account haccount =>
    have hshrinks := haccount.effect.shrinks
    refine h.moved none (hshrinks.metered h.metered)
      (.of_subset (haccount.effect.sameVaults.vaults ▸ List.Subset.refl _)) (by simp) hwithin
      fun holder hlock => ?_
    exact (h.sees holder hlock).mono
      (fun _ => Scope.used_le_of_shrinks hshrinks h.metered) (fun _ => le_rfl)
      fun _ _ => ⟨rfl, rfl⟩

/-! ## Commits of uploads -/

namespace Sound

theorem held_pos (h : Sound config s) (hspender : s.spender? = none) (hp : s.pending c = some p)
    (hcovers : scope.covers p.storageReservation.ownerUserId = true) :
    (s.account scope).held c = p.storageReservation.bytes ∧ 0 < (s.account scope).held c := by
  have hheld : (s.account scope).held c = p.storageReservation.bytes := by
    show counted scope s.spender? s.pending c = _
    rw [hspender, counted, if_neg (by simp), hp]
    exact Scope.share_of_covers hcovers
  refine ⟨hheld, ?_⟩
  rw [hheld]
  exact h.bytes_pos hp

theorem fits (h : Sound config s) (scope : Scope) (hspender : s.spender? = none)
    (hp : s.pending c = some p) (hcovers : scope.covers p.storageReservation.ownerUserId = true) :
    scope.used s.store.db + p.storageReservation.bytes ≤ scope.limit config := by
  obtain ⟨hheld, hpos⟩ := h.held_pos hspender hp hcovers
  rw [← hheld]
  exact (h.within scope).fits hpos

theorem used_add_reserved_le (h : Sound config s) (scope : Scope) (hspender : s.spender? = none)
    (hp : s.pending c = some p)
    (hcovers : scope.covers p.storageReservation.ownerUserId = true) :
    scope.used s.store.db + scope.reserved s.reservations ≤ scope.limit config := by
  rw [← h.account_reserved hspender]
  exact (h.within scope).le ⟨c, (h.held_pos hspender hp hcovers).2⟩

/-- The quota check finds room for an upload that holds a reservation. -/
theorem enforceStorageQuotas_eq (h : Sound config s) (hspender : s.spender? = none)
    (hp : s.pending c = some p) {v : VaultRow}
    (hv : s.store.db.vault? p.revision.vaultId = some v) :
    s.store.db.enforceStorageQuotas p.revision.vaultId p.revision.size config.storageQuotaBytes
      config.storageQuotaBytesPerOwner = .ok () := by
  obtain ⟨connection, hconnection, hholds⟩ := h.pending c p hp
  have hbytes : p.storageReservation.bytes = p.revision.size := by rw [hholds.reservation]
  have hown : v.ownerUserId = p.storageReservation.ownerUserId := by
    obtain ⟨hmem, hid⟩ := mem_of_vault? hv
    rw [hholds.reservation]
    exact (h.owned c connection hconnection).owner v hmem (hid.trans hholds.vault)
  have hroom : s.store.db.usedBytes + p.storageReservation.bytes ≤ config.storageQuotaBytes :=
    h.fits .all hspender hp rfl
  have hroomOwner : s.store.db.ownerStoredCiphertextSize v.ownerUserId +
      p.storageReservation.bytes ≤ config.storageQuotaBytesPerOwner := by
    rw [hown]
    exact h.fits (.owner _) hspender hp (Scope.covers_owner_self _)
  have hused : 0 ≤ Scope.all.used s.store.db := Scope.used_nonneg h.metered
  have husedOwner : 0 ≤ (Scope.owner v.ownerUserId).used s.store.db := Scope.used_nonneg h.metered
  have hpos := hholds.pos
  simp only [Scope.used] at hused husedOwner
  rw [hbytes] at hroom hroomOwner
  exact enforceStorageQuotas_ok.mpr ⟨hpos.le, by omega, by omega, v, hv, .inr
    ⟨by omega, by omega, _, h.metered.counter, hroom, hroomOwner⟩⟩

end Sound

section

variable {db : Database} {vaultId : String} {globalLimit ownerLimit : Int}

theorem authorizeMutation_ne_quota {tokenHash : Option String} {userId now : Int} :
    db.authorizeMutation tokenHash userId vaultId now ≠ .error .storageQuotaExceeded := by
  simp [Database.authorizeMutation, Database.authorizeAccountMutation, bind_eq_error]

theorem checkExpectedVersion_ne_quota {revision : NewRevision} :
    db.checkExpectedVersion revision ≠ .error .storageQuotaExceeded := by
  unfold Database.checkExpectedVersion
  split
  · exact pure_ne_error
  · simp [bind_eq_error]

theorem exists_vault_of_quota {bytes : Int}
    (h : db.enforceStorageQuotas vaultId bytes globalLimit ownerLimit =
      .error .storageQuotaExceeded) : ∃ v, db.vault? vaultId = some v := by
  simp only [Database.enforceStorageQuotas, bind_eq_error, rejectIf_eq_error, orReject_eq_error,
    orReject_eq_ok, reduceCtorEq, and_false, false_or] at h
  obtain ⟨-, -, v, hv, -⟩ := h
  exact ⟨v, hv⟩

/-- Of the checks of an upload only that of the quotas says that a limit is exceeded. -/
theorem quota_of_execute {revision : NewRevision} {token : String} {file : Blob} {t : Readings}
    (h : (Request.addFileRevision revision token file globalLimit ownerLimit).execute db t =
      .error .storageQuotaExceeded) :
    db.enforceStorageQuotas revision.vaultId revision.size globalLimit ownerLimit =
      .error .storageQuotaExceeded := by
  simp only [Request.execute, Database.addFileRevisionInternal, Database.insertRevision,
    Database.insertRevisionContent, Database.copyInto, bind_eq_error, rejectIf_eq_error,
    orReject_eq_error, pure_ne_error, authorizeMutation_ne_quota, checkExpectedVersion_ne_quota,
    reduceCtorEq, and_false, false_or, or_false, exists_false] at h
  obtain ⟨-, -, -, -, -, -, h⟩ := h
  exact h

end

/-! ## Runs -/

theorem Sound.start {store : Store} (hm : Metered store.db) :
    Sound config (State.start store : State C) where
  metered := hm
  known v hv := List.mem_map_of_mem hv
  owned c connection hconnection := by cases hconnection
  pending c p hp := by cases hp
  totals scope := by
    cases scope with
    | all => exact Finset.sum_const_zero.symm
    | owner userId => exact Finset.sum_const_zero.symm
  bounded scope := by
    cases scope with
    | all => exact show (0 : Int) ≤ maxI64 by decide
    | owner userId => exact show (0 : Int) ≤ maxI64 by decide
  within scope := by
    refine ⟨fun c => le_rfl, ?_⟩
    rintro ⟨c, hc⟩
    exact absurd hc (lt_irrefl 0)
  sees holder hlock := by cases hlock

/-- After the start of the server, in every state of every run: the sums of reservations are the
sums over the uploads that hold one, and no drop saturates; while nobody holds the commit-order
lock and some upload holds a reservation, what is stored and reserved is within both limits;
nothing overflows when a reservation is made; and a commit that holds a reservation is not
refused for a quota. -/
theorem reserved_uploads_fit {file store : Store} {actions : List (Action C)}
    (hglobal : config.storageQuotaBytes ≤ maxI64)
    (howner : config.storageQuotaBytesPerOwner ≤ maxI64)
    (hsizes : ∀ r ∈ file.db.revisions, 0 ≤ r.size)
    (hstart : store.db = file.db.initializeRuntimeStorageUsage)
    (hrun : Run (Step phc config) (State.start store) actions s) :
    (s.reservations.reserved = ∑ c, heldOf .all (s.pending c) ∧
      ∀ userId, s.reservations.reservedForOwner userId =
        ∑ c, heldOf (.owner userId) (s.pending c)) ∧
    (∀ c p, s.pending c = some p →
      let r := p.storageReservation
      r.bytes ≤ s.reservations.reserved ∧
        r.bytes ≤ s.reservations.reservedForOwner r.ownerUserId ∧
        (s.reservations.drop r).reserved = s.reservations.reserved - r.bytes ∧
        (s.reservations.drop r).reservedForOwner r.ownerUserId =
          s.reservations.reservedForOwner r.ownerUserId - r.bytes) ∧
    (s.lock = none → ∀ c p, s.pending c = some p →
      let userId := p.storageReservation.ownerUserId
      ∃ used, s.store.db.storedCiphertextSize = .ok used ∧
        used + s.reservations.reserved ≤ config.storageQuotaBytes ∧
        s.store.db.ownerStoredCiphertextSize userId + s.reservations.reservedForOwner userId ≤
          config.storageQuotaBytesPerOwner) ∧
    (∀ committedGlobal committedOwner userId bytes, ∃ answer,
      s.reservations.tryReserve committedGlobal committedOwner userId bytes
        config.storageQuotaBytes config.storageQuotaBytesPerOwner = .ok answer) ∧
    ∀ c content p token t, s.lock = some (.commit c content) → s.pending c = some p →
      (∀ v, s.store.db.vault? p.revision.vaultId = some v →
        s.store.db.enforceStorageQuotas p.revision.vaultId p.revision.size
          config.storageQuotaBytes config.storageQuotaBytesPerOwner = .ok ()) ∧
      (Request.addFileRevision p.revision token content config.storageQuotaBytes
        config.storageQuotaBytesPerOwner).execute s.store.db t ≠ .error .storageQuotaExceeded := by
  have hfirst : Metered store.db := by
    rw [hstart]
    exact ⟨hsizes, rfl⟩
  have h : Sound config s :=
    Run.invariant (I := Sound config) (fun h hstep => h.step hglobal howner hstep)
      (Sound.start hfirst) hrun
  refine ⟨⟨h.totals .all, fun userId => h.totals (.owner userId)⟩, ?_, ?_, ?_, ?_⟩
  · intro c p hp r
    have hpart : ∀ scope : Scope, scope.covers r.ownerUserId = true →
        heldOf scope (s.pending c) = r.bytes := by
      intro scope hcovers
      rw [hp]
      exact Scope.share_of_covers hcovers
    have hall := hpart .all rfl
    have hown := hpart (.owner r.ownerUserId) (Scope.covers_owner_self _)
    have hdrop := h.reserved_drop hp .all
    have hdropOwner := h.reserved_drop hp (.owner r.ownerUserId)
    rw [hall] at hdrop
    rw [hown] at hdropOwner
    exact ⟨hall ▸ h.heldOf_le .all c, hown ▸ h.heldOf_le (.owner r.ownerUserId) c, hdrop,
      hdropOwner⟩
  · intro hlock c p hp userId
    have hspender : s.spender? = none := spender?_of_lock hlock
    refine ⟨s.store.db.usedBytes, ?_, h.used_add_reserved_le .all hspender hp rfl,
      h.used_add_reserved_le (.owner userId) hspender hp (Scope.covers_owner_self _)⟩
    rw [Database.storedCiphertextSize, h.metered.counter]
    rfl
  · exact fun _ _ _ _ => tryReserve_total h.reserved_nonneg hglobal howner
  · intro c content p token t hlock hp
    have hspender : s.spender? = none := spender?_of_lock hlock
    refine ⟨fun v hv => h.enforceStorageQuotas_eq hspender hp hv, fun hquota => ?_⟩
    have hrefused := quota_of_execute hquota
    obtain ⟨v, hv⟩ := exists_vault_of_quota hrefused
    cases (h.enforceStorageQuotas_eq hspender hp hv).symm.trans hrefused

end

/-- A note of three bytes is let in where five may be stored, and its commit begins. -/
theorem reserved_uploads_fit_of_note :
    let config : Config := ⟨"h", 100, 5, 5, fun _ => true⟩
    let revision : NewRevision := { notePush false 3 1 with path := "a\"b", ctime := 1, mtime := 2 }
    let request := Request.addFileRevision revision someTokenHash [1, 2, 3] 5 5
    ∃ admitted committing : State Unit,
      admitted.lock = none ∧ admitted.pending () = some ⟨revision, ⟨1, 3⟩⟩ ∧
      (∃ used, admitted.store.db.storedCiphertextSize = .ok used ∧
        used + admitted.reservations.reserved ≤ 5) ∧
      Step onePhc config admitted (.finish ()) committing ∧
      request.execute committing.store.db ⟨500, 500⟩ ≠ .error .storageQuotaExceeded := by
  intro config revision request
  let session := Session.init someTokenHash 1 "vault" (.object [("device", .string "d")])
  have hpush : beginPush config { session with pending := false } quotedPush = .ok revision := by
    decide +kernel
  have hvault : personalStore.db.vaultOwnerUserId session.vault = some 1 := by decide +kernel
  have htry : StorageReservations.empty.tryReserve 0 0 1 3 5 5 =
      .ok (some (⟨1, 3⟩, StorageReservations.empty.withReservation ⟨1, 3⟩)) := rfl
  have hadmitted : Run (Step onePhc config) (State.start personalStore : State Unit)
      [.connect (), .push () quotedPush, .proceed, .proceed, .proceed, .unlock] _ :=
    .cons (.connect rfl (fun h => by cases h) hvault) <|
    .cons (.pushFile rfl rfl hpush rfl) <|
    .cons (.stored rfl rfl) <|
    .cons (.storedForOwner rfl rfl) <|
    .cons (.reserve rfl rfl htry) <|
    .cons (.unlock rfl rfl) <|
    .nil _
  have hcommitting := hadmitted.snoc (a := .finish ()) (.finish [1, 2, 3] rfl rfl)
  have hfits := @reserved_uploads_fit Unit _ _ onePhc config _ personalStore personalStore _
    (by decide) (by decide) (by decide) (by decide +kernel) hadmitted
  have hcommit := @reserved_uploads_fit Unit _ _ onePhc config _ personalStore personalStore _
    (by decide) (by decide) (by decide) (by decide +kernel) hcommitting
  obtain ⟨used, hused, hle, -⟩ := hfits.2.2.1 rfl () _ rfl
  exact ⟨_, _, rfl, rfl, ⟨used, hused, hle⟩, .finish [1, 2, 3] rfl rfl,
    (hcommit.2.2.2.2 () [1, 2, 3] _ someTokenHash ⟨500, 500⟩ rfl rfl).2⟩

end Admission

end Quota

end Blackglass
