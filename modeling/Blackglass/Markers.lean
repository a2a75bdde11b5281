import Blackglass.Epoch
import Blackglass.Quota.Usage

/-!
# Markers of retired identities

A vault id that was given up is remembered, so that a device that still uses it learns that
its vault is gone.  The table is bounded twice, for each owner and as a whole, and an id is
never both active and retired.  Ids leave the active set on two paths, a single retirement
(`retire_vault_identity`) and the rotation of all vaults, and both make room before they
insert, so that no clock can push the table over its bounds.
-/

namespace Blackglass

open Outcome Retention Transition

/-! ## The order of markers -/

instance : Std.Total RetiredVaultRow.newerThan where
  total a b := by
    unfold RetiredVaultRow.newerThan
    rcases lt_trichotomy a.retiredAt b.retiredAt with h | h | h
    · exact .inr (.inl h)
    · rcases le_total a.id b.id with hid | hid
      · exact .inr (.inr ⟨h.symm, hid⟩)
      · exact .inl (.inr ⟨h, hid⟩)
    · exact .inl (.inl h)

instance : IsTrans RetiredVaultRow RetiredVaultRow.newerThan where
  trans a b c hab hbc := by
    unfold RetiredVaultRow.newerThan at hab hbc ⊢
    rcases hab with hab | ⟨hab, hid⟩
    · rcases hbc with hbc | ⟨hbc, -⟩
      · exact .inl (hbc.trans hab)
      · exact .inl (hbc ▸ hab)
    · rcases hbc with hbc | ⟨hbc, hid'⟩
      · exact .inl (hab ▸ hbc)
      · exact .inr ⟨hab.trans hbc, hid'.trans hid⟩

/-! ## The invariant -/

/-- What the verifier checks of the markers. -/
structure Markers (db : Database) : Prop where
  perOwner : ∀ owner,
    ((db.retiredVaults.filter (ownedBy owner)).length : Int) ≤ maxRetiredVaultsPerOwner
  total : (db.retiredVaults.length : Int) ≤ maxRetiredVaults
  disjoint : ∀ r ∈ db.retiredVaults, db.hasVault r.id = false

theorem LogicalInvariants.markers {phc : PhcParser} {db : Database} {now : Int}
    {externalContent : Bool} (h : LogicalInvariants phc db externalContent true now)
    (ht : .retiredVaults ∈ db.tables) : Markers db := by
  refine ⟨fun owner => ?_, h.retiredCount ht, h.disjoint ht⟩
  cases hrows : db.retiredVaults.filter (ownedBy owner) with
  | nil => decide
  | cons r rest =>
    have hr : r ∈ db.retiredVaults.filter (ownedBy owner) := hrows ▸ List.mem_cons_self
    obtain ⟨hmem, howned⟩ := List.mem_filter.mp hr
    have howner : r.ownerUserId = owner := by simpa [ownedBy] using howned
    rw [← hrows, ← howner]
    exact h.retiredPerOwner ht rfl r hmem

/-! ## One retirement -/

/-- The vault that a request retires if it succeeds. -/
def Request.retires? : Request → Option String
  | deleteVault _ _ id => some id
  | migrateVault _ _ sourceId _ => some sourceId
  | _ => none

/-- The markers after the retirement of a vault of `owner`. -/
structure Retires (db : Database) (owner : Int) (id : String) (retiredAt : Int) (db' : Database) :
    Prop where
  owned : ∃ v ∈ db.vaults, v.id = id ∧ v.ownerUserId = owner
  room : ((retainMarkers owner (maxRetiredVaultsPerOwner - 1).toNat db.retiredVaults).length :
    Int) < maxRetiredVaults
  markers : db'.retiredVaults =
    (retainMarkers owner (maxRetiredVaultsPerOwner - 1).toNat db.retiredVaults).filter
      (fun r => r.id ≠ id) ++ [{ id := id, ownerUserId := owner, retiredAt := retiredAt }]

/-- What a committed request has done to the identities. -/
inductive MarkerEffect (db : Database) (t : Readings) (request : Request) (answer : Answer)
    (db' : Database) : Prop where
  | keep :
      (∀ id ∈ request.retires?, db.ownsVault request.userId id = false ∧ answer = .flag false) →
      db'.retiredVaults = db.retiredVaults →
      (∀ id, db'.hasVault id = true → db.hasVault id = true ∨ id ∈ request.newVault?) →
      MarkerEffect db t request answer db'
  | retire {id : String} : id ∈ request.retires? → answer = .flag true →
      Retires db request.userId id t.now db' →
      (∀ x, db'.hasVault x = true → (db.hasVault x = true ∨ x ∈ request.newVault?) ∧ x ≠ id) →
      MarkerEffect db t request answer db'

theorem retireVaultIdentity_room {db db' : Database} {vaultId : String} {retiredAt : Int}
    (hc : Constraints db) {v : VaultRow} (hv : v ∈ db.vaults) (hid : v.id = vaultId)
    (h : db.retireVaultIdentity vaultId retiredAt = .ok db') :
    ((retainMarkers v.ownerUserId (maxRetiredVaultsPerOwner - 1).toNat db.retiredVaults).length :
      Int) < maxRetiredVaults ∧ db' = db.withRetiredIdentity vaultId v.ownerUserId retiredAt := by
  subst hid
  simp only [Database.retireVaultIdentity, Database.replaceRetiredVault, bind_eq_ok,
    orReject_eq_ok, rejectIf_eq_ok, exists_unit, pure_eq_ok, hc.vault?_eq hv, Option.some.injEq,
    exists_eq_left', not_le] at h
  obtain ⟨hroom, -, rfl⟩ := h
  exact ⟨hroom, rfl⟩

section Effects

variable {db db' : Database} {t : Readings} {userId : Int} {tokenHash : String}

/-- Deleting a vault leaves the others. -/
theorem hasVault_withoutVaults {p : VaultRow → Bool} {x : String}
    (h : (db.withoutVaults p).hasVault x = true) : ∃ v ∈ db.vaults, v.id = x ∧ p v = false := by
  obtain ⟨v, hv, hid⟩ := hasVault_iff.mp h
  obtain ⟨hmem, hp⟩ := List.mem_filter.mp hv
  exact ⟨v, hmem, hid, by simpa using hp⟩

theorem deleteVaultInternal_markers (hc : Constraints db) {id : String} {deleted : Bool}
    (h : db.deleteVaultInternal userId (some tokenHash) id t = .ok (deleted, db')) :
    MarkerEffect db t (.deleteVault userId tokenHash id) (.flag deleted) db' := by
  simp only [Database.deleteVaultInternal, bind_eq_ok (x := Database.authorizeAccountMutation ..),
    exists_unit] at h
  obtain ⟨-, h⟩ := h
  cases howned : db.ownsVault userId id with
  | false =>
    simp only [howned, Bool.false_eq_true, if_false, pure_eq_ok, Prod.mk.injEq] at h
    obtain ⟨rfl, rfl⟩ := h
    exact .keep (fun id hid => by cases hid; exact ⟨howned, rfl⟩) rfl fun id hid => .inl hid
  | true =>
    simp only [howned, if_true, bind_eq_ok, pure_eq_ok, Prod.mk.injEq] at h
    obtain ⟨db₁, hretire, db₂, hdelete, rfl, rfl⟩ := h
    obtain ⟨v, hv, hid, howner⟩ := ownsVault_iff.mp howned
    obtain ⟨hroom, rfl⟩ := retireVaultIdentity_room hc hv hid hretire
    obtain rfl := deleteVaults_ok hdelete
    refine .retire rfl rfl ⟨⟨v, hv, hid, howner⟩, howner ▸ hroom, howner ▸ rfl⟩ fun x hx => ?_
    obtain ⟨w, hw, hwid, hp⟩ := hasVault_withoutVaults hx
    refine ⟨.inl (hasVault_iff.mpr ⟨w, hw, hwid⟩), fun hxid => ?_⟩
    have hsame : w = v := hc.eq_of_vaultId hw hv (hwid.trans (hxid.trans hid.symm))
    simp [hsame, hid, howner] at hp

theorem migrateVaultInternal_markers (hc : Constraints db) {sourceId : String}
    {replacement : Vault} {migrated : Bool}
    (h : db.migrateVaultInternal userId (some tokenHash) sourceId replacement t =
      .ok (migrated, db')) :
    MarkerEffect db t (.migrateVault userId tokenHash sourceId replacement) (.flag migrated)
      db' := by
  simp only [Database.migrateVaultInternal, bind_eq_ok (x := Database.authorizeAccountMutation ..),
    authorizeAccountMutation_ok, exists_unit] at h
  obtain ⟨⟨_, -, hauth⟩, h⟩ := h
  cases howned : db.ownsVault userId sourceId with
  | false =>
    simp only [howned, Bool.false_eq_true, if_false, pure_eq_ok, Prod.mk.injEq] at h
    obtain ⟨rfl, rfl⟩ := h
    exact .keep (fun id hid => by cases hid; exact ⟨howned, rfl⟩) rfl fun id hid => .inl hid
  | true =>
    simp only [howned, if_true, bind_eq_ok, pure_eq_ok, Prod.mk.injEq] at h
    obtain ⟨db₁, hinsert, db₂, hretire, db₃, hdelete, rfl, rfl⟩ := h
    obtain ⟨hnew, -, rfl⟩ := insertVault_ok hinsert
    obtain ⟨v, hv, hid, howner⟩ := ownsVault_iff.mp howned
    have hwith : Constraints (db.withVault (replacement.toRow userId)) :=
      hc.withVault hnew hauth.hasUser
    -- the markers and vaults of the moved database are those of the one with the new vault
    have hvault : (((db.withVault (replacement.toRow userId)).mapMemberships
        (.moved sourceId replacement.id)).vault? sourceId) = some v := by
      rw [← hid]
      exact hwith.vault?_eq (List.mem_append_left _ hv)
    simp only [Database.retireVaultIdentity, Database.replaceRetiredVault, bind_eq_ok,
      orReject_eq_ok, rejectIf_eq_ok, exists_unit, pure_eq_ok, hvault, Option.some.injEq,
      exists_eq_left', not_le] at hretire
    obtain ⟨hroom, -, rfl⟩ := hretire
    obtain rfl := deleteVaults_ok hdelete
    refine .retire rfl rfl ⟨⟨v, hv, hid, howner⟩, howner ▸ hroom, howner ▸ rfl⟩ fun x hx => ?_
    obtain ⟨w, hw, hwid, hp⟩ := hasVault_withoutVaults hx
    rcases List.mem_append.mp hw with hw | hw
    · refine ⟨.inl (hasVault_iff.mpr ⟨w, hw, hwid⟩), fun hxid => ?_⟩
      have hsame : w = v := hc.eq_of_vaultId hw hv (hwid.trans (hxid.trans hid.symm))
      simp [hsame, hid, howner] at hp
    · rw [List.mem_singleton.mp hw] at hwid
      refine ⟨.inr (hwid ▸ rfl), fun hxid => ?_⟩
      exact hasVault_eq_false_iff.mp hnew v hv (hid.trans (hxid.symm.trans hwid.symm))

end Effects

theorem Effect.markers {db db' : Database} {t : Readings} {request : Request} {answer : Answer}
    (h : Effect db t request answer db') (hc : Constraints db) :
    MarkerEffect db t request answer db' := by
  have hvaults : ∀ id, db'.hasVault id = true →
      db.hasVault id = true ∨ id ∈ request.newVault? := by
    intro id hid
    obtain ⟨v', hv', rfl⟩ := hasVault_iff.mp hid
    obtain hnew | ⟨v, hv, hkept⟩ := h.vaultsContinue hc v' hv'
    · exact .inr hnew
    · exact .inl (hasVault_iff.mpr ⟨v, hv, hkept.id⟩)
  have hkeep (hretires : request.retires? = none) : MarkerEffect db t request answer db' := by
    refine .keep (by simp [hretires]) ?_ hvaults
    cases h.written hc with
    | @committed _ _ content _ _ => cases content <;> rfl
    | deleted | migrated => cases hretires
    | _ => rfl
  cases h with
  | deleteVault hok => exact deleteVaultInternal_markers hc hok
  | migrateVault hok => exact migrateVaultInternal_markers hc hok
  | _ => exact hkeep rfl

/-! ## What a retirement is for -/

/-- How many of some markers are of one owner. -/
def countOf (markers : List RetiredVaultRow) (owner : Int) : Nat :=
  (markers.filter (ownedBy owner)).length

/-- The markers that stay when every owner makes room for the new ones: the owner's newest. -/
def Database.markersKept (db : Database) (markers : List RetiredVaultRow) : List RetiredVaultRow :=
  db.retiredVaults.filter fun r => r ∈ retainMarkers r.ownerUserId
    (maxRetiredVaultsPerOwner - countOf markers r.ownerUserId).toNat db.retiredVaults

/-- The identities `markers` are given up: they are remembered, with as many of the earlier
ones of the same owners as the bounds allow. -/
structure Retirement (db : Database) (markers : List RetiredVaultRow) (new : List String)
    (db' : Database) : Prop where
  perOwner : ∀ owner, (countOf markers owner : Int) ≤ maxRetiredVaultsPerOwner
  total : (((db.markersKept markers).length + markers.length : Nat) : Int) ≤ maxRetiredVaults
  retiredVaults : db'.retiredVaults.Perm (db.markersKept markers ++ markers)
  active_before : ∀ m ∈ markers, db.hasVault m.id = true
  gone : ∀ m ∈ markers, db'.hasVault m.id = false
  active : ∀ id, db'.hasVault id = true → db.hasVault id = true ∨ id ∈ new

section Retirement

variable {db db' : Database} {given : List RetiredVaultRow} {new : List String}

theorem ownedBy_iff {owner : Int} {r : RetiredVaultRow} :
    ownedBy owner r = true ↔ r.ownerUserId = owner := by
  simp [ownedBy]

/-- What is kept of one owner's markers. -/
theorem filter_markersKept (db : Database) (given : List RetiredVaultRow) (owner : Int) :
    (db.markersKept given).filter (ownedBy owner) = (retainMarkers owner
      (maxRetiredVaultsPerOwner - countOf given owner).toNat db.retiredVaults).filter
        (ownedBy owner) := by
  unfold Database.markersKept
  rw [List.filter_filter, retainMarkers, retain, List.filter_filter]
  refine List.filter_congr fun r hr => ?_
  cases howned : ownedBy owner r with
  | false => rfl
  | true =>
    obtain rfl := ownedBy_iff.mp howned
    rw [Bool.eq_iff_iff]
    simp [retain, hr, howned]

/-- An owner who gives nothing up keeps all. -/
theorem Markers.filter_markersKept_of_count (h : Markers db) {owner : Int}
    (hcount : countOf given owner = 0) :
    (db.markersKept given).filter (ownedBy owner) = db.retiredVaults.filter (ownedBy owner) := by
  have hbound := h.perOwner owner
  rw [filter_markersKept, hcount, retainMarkers, retain_eq_self]
  simp only [maxRetiredVaultsPerOwner] at hbound ⊢
  omega

/-- Where nothing is given up, nothing is forgotten. -/
theorem Markers.markersKept_nil (h : Markers db) : db.markersKept [] = db.retiredVaults := by
  refine List.filter_eq_self.mpr fun r hr => decide_eq_true ?_
  have hmem : r ∈ (db.markersKept []).filter (ownedBy r.ownerUserId) := by
    rw [h.filter_markersKept_of_count rfl]
    exact List.mem_filter.mpr ⟨hr, ownedBy_iff.mpr rfl⟩
  exact of_decide_eq_true (List.mem_filter.mp (List.mem_filter.mp hmem).1).2

/-- The bounds hold after a retirement of whatever size, with any times. -/
theorem Retirement.markers (h : Retirement db given new db') (hc : Constraints db)
    (hm : Markers db) (hnew : ∀ id ∈ new, ∀ r ∈ db.retiredVaults, r.id ≠ id) : Markers db' := by
  refine ⟨fun owner => ?_, ?_, fun r hr => ?_⟩
  · have hperm := (h.retiredVaults.filter (ownedBy owner)).length_eq
    rw [List.filter_append, List.length_append, filter_markersKept] at hperm
    have hkept : ((retainMarkers owner (maxRetiredVaultsPerOwner - countOf given owner).toNat
        db.retiredVaults).filter (ownedBy owner)).length ≤
          (maxRetiredVaultsPerOwner - countOf given owner).toNat :=
      length_filter_retain_le hc.retiredId
    have hcount := h.perOwner owner
    unfold countOf at hcount hkept hperm
    omega
  · rw [h.retiredVaults.length_eq, List.length_append]
    exact h.total
  · rcases List.mem_append.mp (h.retiredVaults.mem_iff.mp hr) with hkept | hgiven
    · have hmem := (List.mem_filter.mp hkept).1
      rw [Bool.eq_false_iff]
      intro hactive
      rcases h.active _ hactive with hbefore | hfresh
      · rw [hm.disjoint r hmem] at hbefore
        cases hbefore
      · exact hnew _ hfresh r hmem rfl
    · exact h.gone r hgiven

/-- Of the earlier markers, those stay that were to be kept. -/
theorem Retirement.mem_iff (h : Retirement db given new db') (hm : Markers db)
    {r : RetiredVaultRow} (hr : r ∈ db.retiredVaults) :
    r ∈ db'.retiredVaults ↔ r ∈ db.markersKept given := by
  rw [h.retiredVaults.mem_iff, List.mem_append]
  refine ⟨fun hor => hor.resolve_right fun hgiven => ?_, .inl⟩
  have hactive := h.active_before r hgiven
  rw [hm.disjoint r hr] at hactive
  cases hactive

/-- An owner who gives nothing up is not concerned. -/
theorem Retirement.filter_perm (h : Retirement db given new db') (hm : Markers db) {owner : Int}
    (hother : ∀ m ∈ given, m.ownerUserId ≠ owner) :
    (db'.retiredVaults.filter (ownedBy owner)).Perm (db.retiredVaults.filter (ownedBy owner)) := by
  have hnone : given.filter (ownedBy owner) = [] :=
    List.filter_eq_nil_iff.mpr fun m hmem howned => hother m hmem (ownedBy_iff.mp howned)
  have hperm := h.retiredVaults.filter (ownedBy owner)
  rwa [List.filter_append, hnone, List.append_nil,
    hm.filter_markersKept_of_count (by rw [countOf, hnone, List.length_nil])] at hperm

theorem Retirement.filter_kept (h : Retirement db given new db') (hm : Markers db) :
    (db.retiredVaults.filter fun k => k ∈ db'.retiredVaults) = db.markersKept given := by
  refine List.filter_congr fun k hk => ?_
  rw [decide_eq_decide, h.mem_iff hm hk, Database.markersKept, List.mem_filter, decide_eq_true_iff]
  exact and_iff_right hk

/-- What is dropped is of an owner who needed the room, and older than all that stays. -/
theorem Retirement.dropped (h : Retirement db given new db') (hc : Constraints db)
    (hm : Markers db) {r : RetiredVaultRow} (hr : r ∈ db.retiredVaults)
    (hgone : r ∉ db'.retiredVaults) :
    (∃ m ∈ given, m.ownerUserId = r.ownerUserId) ∧
      (((db.markersKept given).filter (ownedBy r.ownerUserId)).length : Int) =
        maxRetiredVaultsPerOwner - countOf given r.ownerUserId ∧
      ∀ k ∈ db.retiredVaults, k ∈ db'.retiredVaults → k.ownerUserId = r.ownerUserId →
        k.newerThan r := by
  have hself : ∀ k ∈ db.retiredVaults, k ∈ db'.retiredVaults ↔ k ∈ retainMarkers k.ownerUserId
      (maxRetiredVaultsPerOwner - countOf given k.ownerUserId).toNat db.retiredVaults := by
    intro k hk
    rw [h.mem_iff hm hk, Database.markersKept, List.mem_filter, decide_eq_true_iff]
    exact and_iff_right hk
  have hdropped := mt (hself r hr).mpr hgone
  refine ⟨?_, ?_, fun k hk hkept howner => ?_⟩
  · by_contra hnone
    have hother : ∀ m ∈ given, m.ownerUserId ≠ r.ownerUserId :=
      fun m hmem howner => hnone ⟨m, hmem, howner⟩
    have hmem : r ∈ db.retiredVaults.filter (ownedBy r.ownerUserId) :=
      List.mem_filter.mpr ⟨hr, ownedBy_iff.mpr rfl⟩
    exact hgone (List.mem_filter.mp ((h.filter_perm hm hother).mem_iff.mpr hmem)).1
  · have hlength := length_filter_retain_of_gone hc.retiredId hr hdropped
    have hcount := h.perOwner r.ownerUserId
    rw [filter_markersKept, hlength]
    omega
  · have hstays := (hself k hk).mp hkept
    rw [howner] at hstays
    exact newer_of_retained hc.retiredId hr (ownedBy_iff.mpr rfl) hdropped hstays
      (ownedBy_iff.mpr howner)

/-- Markers are only dropped where the owner's bound is then met exactly. -/
theorem Retirement.full (h : Retirement db given new db') (hc : Constraints db)
    (hm : Markers db) {r : RetiredVaultRow} (hr : r ∈ db.retiredVaults)
    (hgone : r ∉ db'.retiredVaults) :
    ((db'.retiredVaults.filter (ownedBy r.ownerUserId)).length : Int) =
      maxRetiredVaultsPerOwner := by
  have hlength := (h.dropped hc hm hr hgone).2.1
  have hsplit := (h.retiredVaults.filter (ownedBy r.ownerUserId)).length_eq
  rw [List.filter_append, List.length_append] at hsplit
  unfold countOf at hlength
  omega

/-- Nothing is given up. -/
theorem Retirement.keep (hm : Markers db) (hretired : db'.retiredVaults = db.retiredVaults)
    (hactive : ∀ id, db'.hasVault id = true → db.hasVault id = true ∨ id ∈ new) :
    Retirement db [] new db' where
  perOwner := fun _ => show ((0 : Nat) : Int) ≤ maxRetiredVaultsPerOwner by decide
  total := by
    rw [hm.markersKept_nil]
    exact hm.total
  retiredVaults := by rw [hm.markersKept_nil, hretired, List.append_nil]
  active_before := by simp
  gone := by simp
  active := hactive

theorem countOf_singleton (m : RetiredVaultRow) (owner : Int) :
    countOf [m] owner = if m.ownerUserId = owner then 1 else 0 := by
  by_cases h : m.ownerUserId = owner <;> simp [countOf, ownedBy, h]

/-- One owner makes room for one marker. -/
theorem Markers.markersKept_singleton (h : Markers db) (m : RetiredVaultRow) :
    db.markersKept [m] =
      retainMarkers m.ownerUserId (maxRetiredVaultsPerOwner - 1).toNat db.retiredVaults := by
  unfold Database.markersKept
  rw [retainMarkers, retain]
  refine List.filter_congr fun r hr => ?_
  have hmem : r ∈ db.markersKept [m] ↔ r ∈ (db.markersKept [m]).filter (ownedBy r.ownerUserId) := by
    simp [ownedBy]
  cases howned : ownedBy m.ownerUserId r with
  | true =>
    have howner := ownedBy_iff.mp howned
    rw [howner, countOf_singleton, if_pos rfl, Bool.eq_iff_iff]
    simp [retain, hr, howned]
  | false =>
    have hother : countOf [m] r.ownerUserId = 0 := by
      rw [countOf_singleton, if_neg]
      intro heq
      rw [ownedBy_iff.mpr heq.symm] at howned
      cases howned
    rw [h.filter_markersKept_of_count hother, List.mem_filter] at hmem
    have hkept := (List.mem_filter.mp (hmem.mpr ⟨hr, ownedBy_iff.mpr rfl⟩)).2
    simpa using hkept

/-- `retire_vault_identity` is a retirement of one identity: the id was active, so
`INSERT OR REPLACE` replaces nothing. -/
theorem Retires.retirement {owner : Int} {id : String} {retiredAt : Int}
    (h : Retires db owner id retiredAt db') (hm : Markers db)
    (hactive : ∀ x, db'.hasVault x = true → (db.hasVault x = true ∨ x ∈ new) ∧ x ≠ id) :
    Retirement db [{ id := id, ownerUserId := owner, retiredAt := retiredAt }] new db' := by
  obtain ⟨v, hv, hid, -⟩ := h.owned
  have hkept := hm.markersKept_singleton { id := id, ownerUserId := owner, retiredAt := retiredAt }
  refine ⟨fun other => ?_, ?_, ?_, ?_, ?_, fun x hx => (hactive x hx).1⟩
  · rw [countOf_singleton]
    split <;> decide
  · have hroom := h.room
    rw [hkept, List.length_singleton]
    exact_mod_cast hroom
  · rw [h.markers, hkept, List.filter_eq_self.mpr]
    intro r hr
    have hnone := hasVault_eq_false_iff.mp (hm.disjoint r (retain_sublist.subset hr)) v hv
    simpa [hid] using hnone.symm
  · intro m hmem
    rw [List.mem_singleton.mp hmem]
    exact hasVault_iff.mpr ⟨v, hv, hid⟩
  · intro m hmem
    rw [List.mem_singleton.mp hmem, Bool.eq_false_iff]
    exact fun hx => (hactive _ hx).2 rfl

theorem countOf_marker (rs : List Replacement) (now : Int) (owner : Int) :
    countOf (rs.map (Replacement.marker now)) owner = replacedOf rs owner := by
  unfold countOf replacedOf
  rw [List.filter_map, List.length_map]
  rfl

/-- A rotation is a retirement of all identities at once. -/
theorem Rotated.retirement {newIds : List String} {now : Int} (hc : Constraints db)
    (hfresh : FreshIds db newIds) (hm : Markers db)
    (h : Rotated db (db.replacements newIds) now db') :
    Retirement db ((db.replacements newIds).map (Replacement.marker now)) newIds db' := by
  set rs := db.replacements newIds with hrs
  obtain ⟨kept, hretired, hsub, htotal, hpruned, hkept⟩ := h.retiredVaults
  have hcount : ∀ owner ∉ rs.map (·.ownerUserId), replacedOf rs owner = 0 := by
    intro owner hnone
    rw [replacedOf, List.length_eq_zero_iff, List.filter_eq_nil_iff]
    intro r hr howner
    exact hnone (List.mem_map.mpr ⟨r, hr, by simpa using howner⟩)
  have howner : ∀ owner, kept.filter (ownedBy owner) =
      (db.markersKept (rs.map (Replacement.marker now))).filter (ownedBy owner) := by
    intro owner
    by_cases hin : owner ∈ rs.map (·.ownerUserId)
    · rw [filter_markersKept, countOf_marker]
      exact (hpruned owner hin).2
    · rw [hm.filter_markersKept_of_count ((countOf_marker rs now owner).trans (hcount owner hin))]
      exact hkept owner hin
  have hperm : kept.Perm (db.markersKept (rs.map (Replacement.marker now))) := by
    have hnodup : db.retiredVaults.Nodup := List.Nodup.of_map _ hc.retiredId
    refine (List.perm_ext_iff_of_nodup (hnodup.sublist hsub) (hnodup.filter _)).mpr fun r => ?_
    have hboth : ∀ rows : List RetiredVaultRow,
        r ∈ rows ↔ r ∈ rows.filter (ownedBy r.ownerUserId) := by simp [ownedBy]
    rw [hboth kept, howner]
    exact (hboth _).symm
  refine ⟨fun owner => ?_, ?_, ?_, fun m hmem => ?_, fun m hmem => ?_, fun id hid => ?_⟩
  · rw [countOf_marker]
    by_cases hin : owner ∈ rs.map (·.ownerUserId)
    · exact (hpruned owner hin).1
    · rw [hcount owner hin]
      decide
  · rw [← hperm.length_eq, List.length_map]
    exact htotal
  · rw [hretired]
    exact hperm.append_right _
  · obtain ⟨r, hr, rfl⟩ := List.mem_map.mp hmem
    obtain ⟨⟨v, hv, hid, -⟩, -⟩ := exists_of_mem_replacements hr
    exact hasVault_iff.mpr ⟨v, hv, hid⟩
  · -- every vault has a new id, and no new id is an old one
    obtain ⟨r, hr, rfl⟩ := List.mem_map.mp hmem
    refine hasVault_eq_false_iff.mpr fun w hw hid => ?_
    obtain ⟨v, hv, rfl⟩ := List.mem_map.mp (h.vaults.mem_iff.mp hw)
    obtain ⟨s, hs, hold⟩ := hfresh.exists_replacement hv
    have hrename := rename_of_mem (hfresh.nodup_oldId hc) hs
    exact hfresh.newId_ne_oldId hs hr (by rw [← hrename, hold]; exact hid)
  · obtain ⟨w, hw, rfl⟩ := hasVault_iff.mp hid
    obtain ⟨v, hv, rfl⟩ := List.mem_map.mp (h.vaults.mem_iff.mp hw)
    obtain ⟨s, hs, hold⟩ := hfresh.exists_replacement hv
    have hrename := rename_of_mem (hfresh.nodup_oldId hc) hs
    have hnewId : (VaultRow.renamed rs v).id = s.newId := by
      show rename rs v.id = s.newId
      rw [← hold, hrename]
    exact .inr (hnewId ▸ (exists_of_mem_replacements hs).2)

end Retirement

/-! ## Runs -/

/-- What gives up or creates identities: requests, and the rotation with the new ids it has
drawn. -/
inductive VaultOperation where
  | request (request : Request) (t : Readings)
  | rotateRecoveryEpoch (newIds : List String) (now : Int)
deriving DecidableEq

/-- The marker of a vault that is given up. -/
def VaultRow.marker (now : Int) (v : VaultRow) : RetiredVaultRow :=
  { id := v.id, ownerUserId := v.ownerUserId, retiredAt := now }

namespace VaultOperation

/-- The transaction of an operation; a rotation has no answer. -/
def execute (db : Database) : VaultOperation → Except DbError (Option Answer × Database)
  | .request r t => do
    let (answer, db) ← r.execute db t
    return (some answer, db)
  | .rotateRecoveryEpoch newIds now => do
    let (_, db) ← db.offline.rotateRecoveryEpoch newIds now
    return (none, db)

/-- The markers of the identities that an operation gives up: a vault of the acting user, or
every vault. -/
def retiring (db : Database) : VaultOperation → List RetiredVaultRow
  | .request r t =>
    (r.retires?.filter (db.ownsVault r.userId)).toList.map fun id =>
      { id := id, ownerUserId := r.userId, retiredAt := t.now }
  | .rotateRecoveryEpoch _ now => db.vaultsById.map (VaultRow.marker now)

/-- The identities that an operation introduces. -/
def introduces : VaultOperation → List String
  | .request r _ => r.newVault?.toList
  | .rotateRecoveryEpoch newIds _ => newIds

/-- The ids of new vaults are not retired ones.  A rotation sees to that itself: its ids come
out of the loop that draws them. -/
def Fresh (db : Database) : VaultOperation → Prop
  | .request r _ => ∀ id ∈ r.newVault?, ∀ m ∈ db.retiredVaults, m.id ≠ id
  | .rotateRecoveryEpoch newIds _ =>
    ∃ candidates, drawIds candidates db.reservedIds db.vaults.length = some newIds

end VaultOperation

/-- One operation, which commits, or fails and is rolled back. -/
inductive Store.Retire (s : Store) : VaultOperation → Store → Prop where
  | commit {op answer s'} : op.execute s.db = .ok (answer, s'.db) → Store.Retire s op s'
  | rollback {op error} : op.execute s.db = .error error → Store.Retire s op s

theorem FreshIds.map_marker {db : Database} {newIds : List String} (h : FreshIds db newIds)
    (now : Int) :
    (db.replacements newIds).map (Replacement.marker now) =
      db.vaultsById.map (VaultRow.marker now) :=
  map_zipWith_left (g := Replacement.marker now) (h := VaultRow.marker now) (fun _ _ => rfl)
    h.length_vaultsById

theorem VaultOperation.Fresh.introduces {db : Database} {op : VaultOperation} (h : op.Fresh db) :
    ∀ id ∈ op.introduces, ∀ r ∈ db.retiredVaults, r.id ≠ id := by
  cases op with
  | request request t => exact fun id hid => h id (by simpa [VaultOperation.introduces] using hid)
  | rotateRecoveryEpoch newIds now =>
    obtain ⟨candidates, hdraw⟩ := h
    exact (FreshIds.of_drawIds hdraw).notRetired

theorem Retires.retiring {db db' : Database} {request : Request} {t : Readings} {id : String}
    (h : Retires db request.userId id t.now db') (hid : id ∈ request.retires?) :
    (VaultOperation.request request t).retiring db =
      [{ id := id, ownerUserId := request.userId, retiredAt := t.now }] := by
  rw [Option.mem_def] at hid
  simp [VaultOperation.retiring, hid, ownsVault_iff.mpr h.owned]

theorem VaultOperation.retirement {s : Store} {db' : Database} {op : VaultOperation}
    {answer : Option Answer} (hm : Markers s.db) (hfresh : op.Fresh s.db)
    (hok : op.execute s.db = .ok (answer, db')) :
    Retirement s.db (op.retiring s.db) op.introduces db' := by
  cases op with
  | request request t =>
    simp only [VaultOperation.execute, bind_eq_ok, pure_eq_ok, Prod.exists, Prod.mk.injEq] at hok
    obtain ⟨answer, _, hok, rfl, rfl⟩ := hok
    cases (execute_ok hok).markers s.constraints with
    | keep hnot hretired hactive =>
      have hnone : (VaultOperation.request request t).retiring s.db = [] := by
        cases hretires : request.retires? with
        | none => simp [VaultOperation.retiring, hretires]
        | some id => simp [VaultOperation.retiring, hretires, (hnot id hretires).1]
      rw [hnone]
      exact .keep hm hretired fun id hid => by
        simpa [VaultOperation.introduces] using hactive id hid
    | retire hid _ hretires hactive =>
      rw [hretires.retiring hid]
      exact hretires.retirement hm fun x hx => by
        simpa [VaultOperation.introduces] using hactive x hx
  | rotateRecoveryEpoch newIds now =>
    simp only [VaultOperation.execute, bind_eq_ok, pure_eq_ok, Prod.exists, Prod.mk.injEq] at hok
    obtain ⟨n, _, hok, -, rfl⟩ := hok
    obtain ⟨candidates, hdraw⟩ := hfresh
    have hids : FreshIds s.db newIds := .of_drawIds hdraw
    have hoffline : Constraints s.db.offline := { s.constraints with }
    have hrotated := rotated_of_ok hoffline { hids with } hm.disjoint hok
    have hretirement := hrotated.retirement hoffline { hids with }
      ⟨hm.perOwner, hm.total, hm.disjoint⟩
    have hmarkers : (VaultOperation.rotateRecoveryEpoch newIds now).retiring s.db =
        (s.db.replacements newIds).map (Replacement.marker now) := (hids.map_marker now).symm
    rw [hmarkers]
    exact { hretirement with }

theorem Store.Retire.markers {s s' : Store} {op : VaultOperation} (hm : Markers s.db)
    (hfresh : op.Fresh s.db) (h : s.Retire op s') : Markers s'.db := by
  cases h with
  | commit hok => exact (op.retirement hm hfresh hok).markers s.constraints hm hfresh.introduces
  | rollback _ => exact hm

/-- From a verified database, over every run with any clock readings whose new ids are not
retired ones: the markers are within their bounds, and no active id is retired.  At every
state of such a run, a deletion or migration that succeeds leaves the marker of its vault,
with the vault's owner, and drops only markers of that owner, which are older than the 511
that stay; whoever gives no vault up keeps their markers; and an operation for whose markers
there is no room fails and changes nothing. -/
theorem markers_of_run {phc : PhcParser} {s s' : Store} {now : Int}
    {operations : List VaultOperation}
    (hinit : Database.verifyConnection phc s.db now = .ok ())
    (hrun : Run (Guarded (fun s op => op.Fresh s.db) Store.Retire) s operations s') :
    ((∀ owner, ((s'.db.retiredVaults.filter (ownedBy owner)).length : Int) ≤
        maxRetiredVaultsPerOwner) ∧
      (s'.db.retiredVaults.length : Int) ≤ maxRetiredVaults ∧
      ∀ r ∈ s'.db.retiredVaults, ∀ v ∈ s'.db.vaults, v.id ≠ r.id) ∧
    (∀ (request : Request) (t : Readings) (id : String) (db' : Database),
      (∀ x ∈ request.newVault?, ∀ r ∈ s'.db.retiredVaults, r.id ≠ x) →
      id ∈ request.retires? → request.execute s'.db t = .ok (.flag true, db') →
      (∃ v ∈ s'.db.vaults, v.id = id ∧
        { id := id, ownerUserId := v.ownerUserId, retiredAt := t.now } ∈ db'.retiredVaults ∧
        ∀ r ∈ s'.db.retiredVaults, r ∉ db'.retiredVaults → r.ownerUserId = v.ownerUserId ∧
          (((s'.db.retiredVaults.filter fun k => k ∈ db'.retiredVaults).filter
            (ownedBy v.ownerUserId)).length : Int) = maxRetiredVaultsPerOwner - 1 ∧
          ∀ k ∈ s'.db.retiredVaults, k ∈ db'.retiredVaults → k.ownerUserId = v.ownerUserId →
            k.newerThan r)) ∧
    ∀ (op : VaultOperation), op.Fresh s'.db →
      (∀ (owner : Int) (s'' : Store), s'.Retire op s'' →
        (∀ m ∈ op.retiring s'.db, m.ownerUserId ≠ owner) →
        (s''.db.retiredVaults.filter (ownedBy owner)).Perm
          (s'.db.retiredVaults.filter (ownedBy owner))) ∧
      (maxRetiredVaults < (s'.db.markersKept (op.retiring s'.db)).length +
          (op.retiring s'.db).length →
        (∃ error, op.execute s'.db = .error error) ∧ ∀ s'', s'.Retire op s'' → s'' = s') := by
  have hversion := (verifyRecordedSchema_ok.mp (verifyConnection_ok.mp hinit)).2.2.2.2
  have hstart : Markers s.db := hversion.logical.markers ((hversion.tables _).mpr (by decide))
  have hm : Markers s'.db :=
    Run.invariant_of_guard (I := fun s : Store => Markers s.db)
      (fun h hfresh hstep => hstep.markers h hfresh) hstart hrun
  have hc := s'.constraints
  refine ⟨⟨hm.perOwner, hm.total, fun r hr => hasVault_eq_false_iff.mp (hm.disjoint r hr)⟩, ?_, ?_⟩
  · intro request t id db' hfresh hid hok
    have hretires : Retires s'.db request.userId id t.now db' := by
      cases (execute_ok hok).markers hc with
      | keep hnot => cases (hnot id hid).2
      | retire hid' _ hretires => rwa [Option.mem_unique hid hid']
    obtain ⟨v, hv, hvid, howner⟩ := hretires.owned
    have hfresh' : (VaultOperation.request request t).Fresh s'.db := hfresh
    have hexecute : (VaultOperation.request request t).execute s'.db =
        .ok (some (.flag true), db') := by
      simp only [VaultOperation.execute, bind_eq_ok, pure_eq_ok, Prod.exists]
      exact ⟨_, _, hok, rfl⟩
    have hretirement := VaultOperation.retirement hm hfresh' hexecute
    rw [hretires.retiring hid, ← howner] at hretirement
    refine ⟨v, hv, hvid, ?_, fun r hr hgone => ?_⟩
    · exact hretirement.retiredVaults.mem_iff.mpr (List.mem_append_right _ List.mem_cons_self)
    · obtain ⟨⟨m, hmem, hmowner⟩, hlength, hnewer⟩ := hretirement.dropped hc hm hr hgone
      rw [List.mem_singleton.mp hmem] at hmowner
      rw [← hmowner, countOf_singleton, if_pos rfl, ← hretirement.filter_kept hm] at hlength
      exact ⟨hmowner.symm, by exact_mod_cast hlength,
        fun k hk hkept hkowner => hnewer k hk hkept (hkowner.trans hmowner)⟩
  · intro op hfresh
    refine ⟨fun owner s'' hstep hother => ?_, fun hfull => ?_⟩
    · cases hstep with
      | commit hok => exact (op.retirement hm hfresh hok).filter_perm hm hother
      | rollback _ => exact List.Perm.refl _
    · have hfails : ∀ result, op.execute s'.db ≠ .ok result := by
        rintro ⟨answer, db'⟩ hok
        have htotal := (op.retirement hm hfresh hok).total
        push_cast at htotal
        omega
      constructor
      · cases hresult : op.execute s'.db with
        | error error => exact ⟨error, rfl⟩
        | ok result => exact absurd hresult (hfails result)
      · intro s'' hstep
        cases hstep with
        | commit hok => exact absurd hok (hfails _)
        | rollback _ => rfl

/-- The vault that a migration puts in the place of the personal server's. -/
def movedVault : Vault :=
  { id := "moved", name := "Notes", keyhash := some "k", salt := some "s", host := "h",
    region := "r", encryptionVersion := 3, size := 0, created := 600, password := none }

/-- A vault is migrated, the clock goes back, and the new vault is deleted. -/
theorem markers_of_run_of_clock_rollback :
    let migrate := Request.migrateVault 1 someTokenHash "vault" movedVault
    let delete := Request.deleteVault 1 someTokenHash "moved"
    let s' := personalStore.next migrate ⟨600, 600⟩
    let s'' := s'.next delete ⟨500, 500⟩
    s''.db.retiredVaults.map (fun r => (r.id, r.retiredAt)) = [("vault", 600), ("moved", 500)] ∧
      ∃ v ∈ s'.db.vaults, v.id = "moved" ∧
        { id := "moved", ownerUserId := v.ownerUserId, retiredAt := 500 } ∈
          s''.db.retiredVaults := by
  intro migrate delete s' s''
  have hinit : Database.verifyConnection onePhc personalStore.db 500 = .ok () := by decide +kernel
  have hmigrate : (VaultOperation.request migrate ⟨600, 600⟩).execute personalStore.db =
      .ok (some (.flag true), s'.db) := by decide +kernel
  have hfresh : (VaultOperation.request migrate ⟨600, 600⟩).Fresh personalStore.db :=
    fun _ _ _ hr => by cases hr
  have hrun : Run (Guarded (fun s op => op.Fresh s.db) Store.Retire) personalStore
      [.request migrate ⟨600, 600⟩] s' :=
    .cons ⟨hfresh, .commit hmigrate⟩ (.nil _)
  have hdelete : delete.execute s'.db ⟨500, 500⟩ = .ok (.flag true, s''.db) := by decide +kernel
  refine ⟨by decide +kernel, ?_⟩
  obtain ⟨v, hv, hid, hmarker, -⟩ := (markers_of_run hinit hrun).2.1 delete ⟨500, 500⟩ "moved"
    s''.db (fun x hx => by cases hx) rfl hdelete
  exact ⟨v, hv, hid, hmarker⟩

end Blackglass
