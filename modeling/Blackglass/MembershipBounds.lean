import Blackglass.Request
import Blackglass.Lib.Transition

/-!
# The bounds of the membership table

`verify_membership_invariants` is what startup, backups and offline commands hold the
membership table against.  Its limits are kept by invitations, which prune, and by vault
deletion and migration, which only drop or move rows.  A removal turns an active row into
a revoked one and prunes nothing, so whether the limit on revoked rows survives it depends
on how many there are already.
-/

namespace Blackglass

open Rows Outcome Text Transition

namespace Database

/-- `verify_membership_invariants`. -/
def verifyMembershipInvariants (db : Database) : Except DbError Unit := do
  rejectIf (db.memberships.any fun m =>
      !(1 ≤ m.id && m.id ≤ maxJsSafeInteger) || sqlLength m.vaultId = 0 ||
        (db.vault? m.vaultId).map (·.ownerUserId) = some m.userId)
    (.bail "membership invariant violation")
  rejectIf (maxMemberships < db.memberships.length) (.bail "membership row limit exceeded")
  let overActive := (db.memberships.filter (·.active)).any fun m =>
    maxActiveCollaboratorsPerVault < (db.activeMemberships m.vaultId).length
  let overRevoked := (db.memberships.filter (!·.active)).any fun m =>
    maxRevokedMembershipsPerVault < (db.revokedMemberships m.vaultId).length
  rejectIf (overActive || overRevoked) (.bail "per-vault membership row limit exceeded")
  let sequence := db.sequence "memberships"
  rejectIf (sequence.any fun value => !(0 ≤ value && value ≤ maxJsSafeInteger))
    (.bail "membership sequence exceeds the JavaScript safe integer range")
  let maxId := maxOr0 (db.memberships.map (·.id))
  rejectIf (sequence.getD 0 < maxId) (.bail "membership sequence is below an issued share UID")
  let sequenceRows := (db.sqliteSequence.filter fun row => row.name = some "memberships").length
  rejectIf (1 < sequenceRows ∨ (0 < maxId ∧ sequenceRows ≠ 1))
    (.bail "membership sequence shape is invalid")

end Database

/-- What an accepted membership table satisfies. -/
structure MembershipInvariants (db : Database) : Prop where
  id : ∀ m ∈ db.memberships, 1 ≤ m.id ∧ m.id ≤ maxJsSafeInteger
  vault : ∀ m ∈ db.memberships, sqlLength m.vaultId ≠ 0
  /-- No owner is a member of their own vault. -/
  notOwner : ∀ m ∈ db.memberships, ∀ v ∈ db.vaults, v.id = m.vaultId → v.ownerUserId ≠ m.userId
  total : (db.memberships.length : Int) ≤ maxMemberships
  active : ∀ vaultId,
    ((db.activeMemberships vaultId).length : Int) ≤ maxActiveCollaboratorsPerVault
  revoked : ∀ vaultId,
    ((db.revokedMemberships vaultId).length : Int) ≤ maxRevokedMembershipsPerVault
  sequence : ∀ seq, db.sequence "memberships" = some seq → 0 ≤ seq ∧ seq ≤ maxJsSafeInteger
  issued : ∀ m ∈ db.memberships, m.id ≤ (db.sequence "memberships").getD 0
  sequenceRows : (db.sqliteSequence.filter fun row => row.name = some "memberships").length ≤ 1

/-! ## The verifier -/

/-- `GROUP BY vault_id HAVING COUNT(*)>?` finds nothing when no group is too large; a vault
without rows has no group. -/
theorem forall_group_le {rows : List MembershipRow} {p : MembershipRow → Bool} {limit : Int}
    (hlimit : 0 ≤ limit) :
    ((rows.filter p).any fun m =>
        limit < ((rows.filter fun n => n.vaultId = m.vaultId && p n).length : Int)) = false ↔
      ∀ vaultId, ((rows.filter fun n => n.vaultId = vaultId && p n).length : Int) ≤ limit := by
  simp only [List.any_eq_false, List.mem_filter, decide_eq_true_eq, not_lt]
  constructor
  · intro h vaultId
    cases hrows : rows.filter fun n => n.vaultId = vaultId && p n with
    | nil => simpa using hlimit
    | cons m rest =>
      have hm : m ∈ rows.filter fun n => n.vaultId = vaultId && p n := by simp [hrows]
      obtain ⟨hmem, hp⟩ := List.mem_filter.mp hm
      simp only [Bool.and_eq_true, decide_eq_true_eq] at hp
      have := h m ⟨hmem, hp.2⟩
      rwa [hp.1, hrows] at this
  · intro h m _
    exact h m.vaultId

/-- A sequence that is not below a positive id has a row. -/
theorem sequenceRows_ne_zero {rows : List SequenceRow} {name : String}
    (h : 0 < ((rows.find? fun row => row.name = some name).map (·.seq)).getD 0) :
    (rows.filter fun row => row.name = some name).length ≠ 0 := by
  cases hf : rows.find? fun row => row.name = some name with
  | none => simp [hf] at h
  | some row =>
    have hname := List.find?_some hf
    have hmem : row ∈ rows.filter fun row => row.name = some name :=
      List.mem_filter.mpr ⟨List.mem_of_find?_eq_some hf, hname⟩
    intro hzero
    rw [List.eq_nil_of_length_eq_zero hzero] at hmem
    exact List.not_mem_nil hmem

theorem verifyMembershipInvariants_ok {db : Database} (hc : Constraints db) {u : Unit} :
    db.verifyMembershipInvariants = .ok u ↔ MembershipInvariants db := by
  have hactive : ((db.memberships.filter (·.active)).any fun m => maxActiveCollaboratorsPerVault <
      ((db.activeMemberships m.vaultId).length : Int)) = false ↔ _ :=
    forall_group_le (by decide)
  have hrevoked : ((db.memberships.filter (!·.active)).any fun m => maxRevokedMembershipsPerVault <
      ((db.revokedMemberships m.vaultId).length : Int)) = false ↔ _ :=
    forall_group_le (by decide)
  have howner : ∀ m ∈ db.memberships, ((db.vault? m.vaultId).map (·.ownerUserId) ≠ some m.userId ↔
      ∀ v ∈ db.vaults, v.id = m.vaultId → v.ownerUserId ≠ m.userId) := by
    intro m hm
    obtain ⟨w, hw, hid⟩ := hasVault_iff.mp (hc.membershipVault m hm)
    rw [← hid, hc.vault?_eq hw]
    constructor
    · intro h v hv hvid
      rw [hc.eq_of_vaultId hv hw hvid]
      simpa using h
    · intro h
      simpa using h w hw rfl
  simp only [Database.verifyMembershipInvariants, bind_eq_ok, rejectIf_eq_ok, exists_unit,
    Bool.or_eq_true, not_or, Bool.not_eq_true, hactive, hrevoked]
  constructor
  · rintro ⟨hrows, htotal, ⟨hact, hrev⟩, hseq, hissued, hshape, -⟩
    simp only [List.any_eq_false, Bool.or_eq_true, Bool.not_eq_true', not_or, Bool.not_eq_false,
      Bool.and_eq_true, decide_eq_true_eq] at hrows
    refine ⟨fun m hm => (hrows m hm).1.1, fun m hm => (hrows m hm).1.2,
      fun m hm => (howner m hm).mp (hrows m hm).2, not_lt.mp htotal, hact, hrev, ?_, ?_,
      not_lt.mp hshape⟩
    · intro seq hsome
      simpa [hsome] using hseq
    · intro m hm
      exact (le_maxOr0 (List.mem_map_of_mem hm)).trans (not_lt.mp hissued)
  · intro h
    have hissued : maxOr0 (db.memberships.map (·.id)) ≤ (db.sequence "memberships").getD 0 := by
      refine maxOr0_le ?_ ?_
      · cases hs : db.sequence "memberships" with
        | none => simp
        | some seq => exact (h.sequence seq hs).1
      · intro id hid
        obtain ⟨m, hm, rfl⟩ := List.mem_map.mp hid
        exact h.issued m hm
    refine ⟨?_, not_lt.mpr h.total, ⟨h.active, h.revoked⟩, ?_, not_lt.mpr hissued,
      not_lt.mpr h.sequenceRows, ?_⟩
    · simp only [List.any_eq_false, Bool.or_eq_true, Bool.not_eq_true', not_or, Bool.not_eq_false,
        Bool.and_eq_true, decide_eq_true_eq]
      exact fun m hm => ⟨⟨h.id m hm, h.vault m hm⟩, (howner m hm).mpr (h.notOwner m hm)⟩
    · cases hs : db.sequence "memberships" with
      | none => rfl
      | some seq => simpa using h.sequence seq hs
    · rintro ⟨hpos, hne⟩
      have := sequenceRows_ne_zero (hpos.trans_le hissued)
      have := h.sequenceRows
      omega

/-! ## Changes that keep the invariants -/

/-- Writing a sequence back leaves the number of rows of every other name. -/
theorem sequenceRows_setSequence_of_ne (rows : List SequenceRow) {name other : String} (seq : Int)
    (hne : other ≠ name) :
    ((setSequence rows name seq).filter fun row => row.name = some other).length =
      (rows.filter fun row => row.name = some other).length := by
  induction rows with
  | nil => simp [setSequence, hne.symm]
  | cons row rows ih =>
    by_cases h : row.name = some name
    · simp [setSequence, h, hne.symm]
    · by_cases ho : row.name = some other
      · simpa [setSequence, ho, hne] using ih
      · simpa [setSequence, h, ho] using ih

/-- Writing a sequence back never makes a second row of its name. -/
theorem sequenceRows_setSequence_le (rows : List SequenceRow) (name : String) (seq : Int)
    (h : (rows.filter fun row => row.name = some name).length ≤ 1) :
    ((setSequence rows name seq).filter fun row => row.name = some name).length ≤ 1 := by
  induction rows with
  | nil => simp [setSequence]
  | cons row rows ih =>
    by_cases hn : row.name = some name
    · simpa [setSequence, hn] using h
    · simp only [List.filter_cons, hn, decide_false, Bool.false_eq_true, if_false] at h
      simpa [setSequence, hn] using ih h

namespace MembershipInvariants

variable {db db' : Database}

/-- A change of other tables: the memberships and their sequence stay, and a vault that
has members keeps its owner. -/
theorem frame (h : MembershipInvariants db) (hm : db'.memberships = db.memberships)
    (hseq : db'.sequence "memberships" = db.sequence "memberships")
    (hrows : (db'.sqliteSequence.filter fun row => row.name = some "memberships").length =
      (db.sqliteSequence.filter fun row => row.name = some "memberships").length)
    (hv : ∀ m ∈ db.memberships, ∀ v ∈ db'.vaults, v.id = m.vaultId →
      ∃ w ∈ db.vaults, w.id = m.vaultId ∧ w.ownerUserId = v.ownerUserId) :
    MembershipInvariants db' where
  id := hm ▸ h.id
  vault := hm ▸ h.vault
  notOwner := by
    rw [hm]
    intro m hmem v hvmem hid
    obtain ⟨w, hw, hwid, hown⟩ := hv m hmem v hvmem hid
    exact hown ▸ h.notOwner m hmem w hw hwid
  total := hm ▸ h.total
  active := by
    unfold Database.activeMemberships
    exact hm ▸ h.active
  revoked := by
    unfold Database.revokedMemberships
    exact hm ▸ h.revoked
  sequence := hseq ▸ h.sequence
  issued := by
    rw [hm, hseq]
    exact h.issued
  sequenceRows := hrows ▸ h.sequenceRows

/-- An update of vault rows that touches neither their ids nor their owners. -/
theorem mapVaults (h : MembershipInvariants db) {f : VaultRow → VaultRow}
    (hid : ∀ v, (f v).id = v.id) (hown : ∀ v, (f v).ownerUserId = v.ownerUserId) :
    MembershipInvariants (db.mapVaults f) := by
  refine h.frame rfl rfl rfl fun m _ v hv hvid => ?_
  obtain ⟨w, hw, rfl⟩ := List.mem_map.mp hv
  exact ⟨w, hw, (hid w).symm.trans hvid, (hown w).symm⟩

/-- A new vault has no members. -/
theorem withVault (h : MembershipInvariants db) (hc : Constraints db) {row : VaultRow}
    (hid : db.hasVault row.id = false) : MembershipInvariants (db.withVault row) := by
  refine h.frame rfl rfl rfl fun m hm v hv hvid => ?_
  rcases List.mem_append.mp hv with hv | hv
  · exact ⟨v, hv, hvid, rfl⟩
  · rw [List.mem_singleton.mp hv] at hvid
    rw [hvid, hc.membershipVault m hm] at hid
    cases hid

theorem filterMemberships (h : MembershipInvariants db) (p : MembershipRow → Bool) :
    MembershipInvariants (db.filterMemberships p) where
  id m hm := h.id m (List.mem_of_mem_filter hm)
  vault m hm := h.vault m (List.mem_of_mem_filter hm)
  notOwner m hm := h.notOwner m (List.mem_of_mem_filter hm)
  total := by
    have := List.length_filter_le p db.memberships
    have := h.total
    simp only [Database.filterMemberships_memberships]
    omega
  active vaultId := by
    have hle := (List.filter_sublist (p := p) (l := db.memberships)).filter
      (fun m => m.vaultId = vaultId && m.active) |>.length_le
    have := h.active vaultId
    unfold Database.activeMemberships at this ⊢
    simp only [Database.filterMemberships_memberships]
    omega
  revoked vaultId := by
    have hle := (List.filter_sublist (p := p) (l := db.memberships)).filter
      (fun m => m.vaultId = vaultId && !m.active) |>.length_le
    have := h.revoked vaultId
    unfold Database.revokedMemberships at this ⊢
    simp only [Database.filterMemberships_memberships]
    omega
  sequence := h.sequence
  issued m hm := h.issued m (List.mem_of_mem_filter hm)
  sequenceRows := h.sequenceRows

theorem withoutVaults (h : MembershipInvariants db) (p : VaultRow → Bool) :
    MembershipInvariants (db.withoutVaults p) := by
  refine (h.filterMemberships fun m => !db.vaults.any fun v => p v && v.id = m.vaultId).frame
    rfl rfl rfl fun m _ v hv hvid => ?_
  exact ⟨v, List.mem_of_mem_filter hv, hvid, rfl⟩

theorem withRetiredIdentity (h : MembershipInvariants db) (vaultId : String)
    (ownerUserId retiredAt : Int) :
    MembershipInvariants (db.withRetiredIdentity vaultId ownerUserId retiredAt) :=
  h.frame rfl rfl rfl fun _ _ v hv hvid => ⟨v, hv, hvid, rfl⟩

/-- One more active row, in a vault that has room for it. -/
theorem withMembership (h : MembershipInvariants db) {row : MembershipRow}
    (hactive : row.active = true) (hvault : sqlLength row.vaultId ≠ 0)
    (hroom : ((db.activeMemberships row.vaultId).length : Int) < maxActiveCollaboratorsPerVault)
    (htotal : (db.memberships.length : Int) < maxMemberships)
    (hseq : (db.sequence "memberships").getD 0 < maxJsSafeInteger)
    (howner : ∀ v ∈ db.vaults, v.id = row.vaultId → v.ownerUserId ≠ row.userId) :
    MembershipInvariants (db.withMembership row) := by
  have hnonneg : 0 ≤ (db.sequence "memberships").getD 0 := by
    cases hs : db.sequence "memberships" with
    | none => simp
    | some seq => exact (h.sequence seq hs).1
  have hnext : db.nextMembershipId = (db.sequence "memberships").getD 0 + 1 := by
    refine nextRowid_eq (maxOr0_le hnonneg ?_)
    intro id hid
    obtain ⟨m, hm, rfl⟩ := List.mem_map.mp hid
    exact h.issued m hm
  have hsequence : (db.withMembership row).sequence "memberships" = some db.nextMembershipId :=
    find_setSequence_self _ _ _
  have hcases : ∀ {P : MembershipRow → Prop}, (∀ m ∈ db.memberships, P m) →
      P { row with id := db.nextMembershipId } →
      ∀ m ∈ (db.withMembership row).memberships, P m := by
    intro P hold hnew m hm
    rcases List.mem_append.mp hm with hm | hm
    · exact hold m hm
    · rw [List.mem_singleton.mp hm]
      exact hnew
  refine ⟨hcases h.id ?_, hcases h.vault hvault, hcases h.notOwner howner, ?_, ?_, ?_, ?_,
    hcases ?_ ?_, ?_⟩
  · simp only
    omega
  · simp only [Database.withMembership_memberships, List.length_append, List.length_singleton]
    omega
  · intro vaultId
    unfold Database.activeMemberships at hroom ⊢
    have := h.active vaultId
    unfold Database.activeMemberships at this
    simp only [Database.withMembership_memberships, List.filter_append, List.length_append]
    by_cases hv : row.vaultId = vaultId
    · subst hv
      have := List.length_filter_le (fun m : MembershipRow => m.vaultId = row.vaultId && m.active)
        [{ row with id := db.nextMembershipId }]
      simp only [List.length_singleton] at this
      omega
    · simpa [hv] using this
  · intro vaultId
    unfold Database.revokedMemberships
    have := h.revoked vaultId
    unfold Database.revokedMemberships at this
    have hnone : [({ row with id := db.nextMembershipId } : MembershipRow)].filter
        (fun m => m.vaultId = vaultId && !m.active) = [] := by
      simp only [MembershipRow.active] at hactive ⊢
      simp [hactive]
    simp only [Database.withMembership_memberships, List.filter_append, hnone, List.append_nil]
    exact this
  · intro seq hsome
    rw [hsequence, Option.some.injEq] at hsome
    omega
  · intro m hm
    have := h.issued m hm
    rw [hsequence, Option.getD_some]
    omega
  · rw [hsequence, Option.getD_some]
  · exact sequenceRows_setSequence_le _ _ _ h.sequenceRows

/-- Active members move to a new vault of the same owner. -/
theorem moveMemberships (h : MembershipInvariants db) {sourceId replacementId : String}
    (hlength : sqlLength replacementId ≠ 0)
    (hempty : ∀ m ∈ db.memberships, m.vaultId ≠ replacementId)
    (howner : ∀ v ∈ db.vaults, v.id = replacementId →
      ∃ w ∈ db.vaults, w.id = sourceId ∧ w.ownerUserId = v.ownerUserId) :
    MembershipInvariants (db.mapMemberships (.moved sourceId replacementId)) := by
  have hcases : ∀ {P : MembershipRow → Prop},
      (∀ m ∈ db.memberships, P (m.moved sourceId replacementId)) →
      ∀ m ∈ (db.mapMemberships (.moved sourceId replacementId)).memberships, P m := by
    intro P hP m hm
    obtain ⟨n, hn, rfl⟩ := List.mem_map.mp hm
    exact hP n hn
  refine ⟨hcases fun m hm => by simpa using h.id m hm, hcases fun m hm => ?_,
    hcases fun m hm v hv hvid => ?_, by simpa using h.total, fun vaultId => ?_, fun vaultId => ?_,
    h.sequence, hcases fun m hm => (m.moved_id sourceId replacementId).symm ▸ h.issued m hm,
    h.sequenceRows⟩
  · rw [MembershipRow.moved_vaultId]
    split
    · exact hlength
    · exact h.vault m hm
  · rw [MembershipRow.moved_userId]
    rw [MembershipRow.moved_vaultId] at hvid
    split at hvid
    · rename_i hmoved
      obtain ⟨w, hw, hwid, hown⟩ := howner v hv hvid
      exact hown ▸ h.notOwner m hm w hw (hwid.trans hmoved.1.symm)
    · exact h.notOwner m hm v hv hvid
  · -- the new vault has the source's members, every other vault at most its own
    have hactive := h.active
    simp only [Database.activeMemberships, ← List.countP_eq_length_filter,
      Database.mapMemberships_memberships, List.countP_map] at hactive ⊢
    by_cases hv : vaultId = replacementId
    · refine le_trans ?_ (hactive sourceId)
      refine Int.ofNat_le.mpr (List.countP_mono_left fun m hm hp => ?_)
      simp only [Function.comp_apply, MembershipRow.moved_vaultId, MembershipRow.moved_active, hv,
        Bool.and_eq_true, decide_eq_true_eq] at hp ⊢
      obtain ⟨hid, ha⟩ := hp
      split at hid
      · rename_i hmoved
        exact hmoved
      · exact absurd hid (hempty m hm)
    · refine le_trans ?_ (hactive vaultId)
      refine Int.ofNat_le.mpr (List.countP_mono_left fun m hm hp => ?_)
      simp only [Function.comp_apply, MembershipRow.moved_vaultId, MembershipRow.moved_active,
        Bool.and_eq_true, decide_eq_true_eq] at hp ⊢
      obtain ⟨hid, ha⟩ := hp
      split at hid
      · exact absurd hid.symm hv
      · exact ⟨hid, ha⟩
  · have hrevoked := h.revoked vaultId
    simp only [Database.revokedMemberships, ← List.countP_eq_length_filter,
      Database.mapMemberships_memberships, List.countP_map] at hrevoked ⊢
    refine le_trans (Int.ofNat_le.mpr (List.countP_mono_left fun m hm hp => ?_)) hrevoked
    simp only [Function.comp_apply, MembershipRow.moved_vaultId, MembershipRow.moved_active,
      Bool.and_eq_true, decide_eq_true_eq, Bool.not_eq_true'] at hp ⊢
    simpa [hp.2] using hp

/-- The revoked rows of a vault after one of its active rows was revoked. -/
theorem revokedMemberships_revoke (hc : Constraints db) {m : MembershipRow} (now : Int)
    (hm : m ∈ db.memberships) (hactive : m.active = true) :
    ((db.mapMemberships (.revoked m.id m.vaultId now)).revokedMemberships m.vaultId).length =
      (db.revokedMemberships m.vaultId).length + 1 := by
  have hone : db.memberships.countP (fun n => decide (n.id = m.id)) = 1 :=
    le_antisymm (countP_key_le_one hc.membershipId m.id)
      (List.countP_pos_iff.mpr ⟨m, hm, by simp⟩)
  simp only [Database.revokedMemberships, ← List.countP_eq_length_filter,
    Database.mapMemberships_memberships, List.countP_map]
  rw [← hone]
  refine countP_eq_add fun n hn => ?_
  simp only [Function.comp_apply, MembershipRow.revoked_vaultId, MembershipRow.revoked_active]
  by_cases hid : n.id = m.id
  · rw [hc.eq_of_membershipId hn hm hid]
    simp [hactive]
  · simp [hid]

/-- One active row of a vault with room for another revoked one is revoked. -/
theorem revokeMembership (h : MembershipInvariants db) (hc : Constraints db) {m : MembershipRow}
    (now : Int) (hm : m ∈ db.memberships) (hactive : m.active = true)
    (hroom : ((db.revokedMemberships m.vaultId).length : Int) < maxRevokedMembershipsPerVault) :
    MembershipInvariants (db.mapMemberships (.revoked m.id m.vaultId now)) := by
  have hcases : ∀ {P : MembershipRow → Prop},
      (∀ n ∈ db.memberships, P (n.revoked m.id m.vaultId now)) →
      ∀ n ∈ (db.mapMemberships (.revoked m.id m.vaultId now)).memberships, P n := by
    intro P hP n hn
    obtain ⟨k, hk, rfl⟩ := List.mem_map.mp hn
    exact hP k hk
  refine ⟨hcases fun n hn => by simpa using h.id n hn,
    hcases fun n hn => by simpa using h.vault n hn,
    hcases fun n hn => by simpa using h.notOwner n hn, by simpa using h.total, fun vaultId => ?_,
    fun vaultId => ?_, h.sequence,
    hcases fun n hn => (n.revoked_id m.id m.vaultId now).symm ▸ h.issued n hn, h.sequenceRows⟩
  · have hcount := h.active vaultId
    simp only [Database.activeMemberships, ← List.countP_eq_length_filter,
      Database.mapMemberships_memberships, List.countP_map] at hcount ⊢
    refine le_trans (Int.ofNat_le.mpr (List.countP_mono_left fun n hn hp => ?_)) hcount
    simp only [Function.comp_apply, MembershipRow.revoked_vaultId, MembershipRow.revoked_active,
      Bool.and_eq_true] at hp ⊢
    exact ⟨hp.1, hp.2.1⟩
  · by_cases hv : vaultId = m.vaultId
    · have hcount := revokedMemberships_revoke hc now hm hactive
      rw [hv]
      omega
    · have hcount := h.revoked vaultId
      simp only [Database.revokedMemberships, ← List.countP_eq_length_filter,
        Database.mapMemberships_memberships, List.countP_map] at hcount ⊢
      refine le_trans (Int.ofNat_le.mpr (List.countP_mono_left fun n hn hp => ?_)) hcount
      simp only [Function.comp_apply, MembershipRow.revoked_vaultId, MembershipRow.revoked_active,
        Bool.and_eq_true, decide_eq_true_eq, Bool.not_eq_true', Bool.and_eq_false_iff,
        Bool.not_eq_false'] at hp ⊢
      obtain ⟨hid, ha | hhit⟩ := hp
      · exact ⟨hid, ha⟩
      · exact absurd (hid.symm.trans hhit.2) hv

theorem commitRevision (h : MembershipInvariants db) (row : RevisionRow) (content : Option Blob) :
    MembershipInvariants (db.commitRevision row content) := by
  have hstored : ∀ stored : Database, stored.memberships = db.memberships →
      stored.vaults = db.vaults →
      stored.sqliteSequence = setSequence db.sqliteSequence "revisions" db.nextRevisionUid →
      MembershipInvariants stored := by
    intro stored hm hv hs
    refine h.frame hm ?_ ?_ fun _ _ v hvmem hvid => ⟨v, hv ▸ hvmem, hvid, rfl⟩
    · unfold Database.sequence
      rw [hs]
      exact find_setSequence_of_ne _ _ (by decide)
    · rw [hs]
      exact sequenceRows_setSequence_of_ne _ _ (by decide)
  cases content with
  | none =>
    exact (hstored (db.withRevision row) rfl rfl rfl).mapVaults (fun v => by split <;> rfl)
      (fun v => by split <;> rfl)
  | some bytes =>
    exact (hstored ((db.withRevision row).withRevisionContent _ bytes) rfl rfl rfl).mapVaults
      (fun v => by split <;> rfl) (fun v => by split <;> rfl)

end MembershipInvariants

/-! ## Requests and runs -/

/-- The side condition under which a request that commits a change keeps the bounds: a removal
finds fewer revoked rows than the limit, and memberships only come to vaults whose id SQLite
counts characters in. -/
def Request.keepsMembershipBounds (db : Database) (t : Readings) (request : Request) : Prop :=
  ∀ answer db', request.execute db t = .ok (answer, db') → db' ≠ db → match request with
  | .removeCollaborator _ _ vaultId _ =>
    ((db.revokedMemberships vaultId).length : Int) < maxRevokedMembershipsPerVault
  | .inviteCollaborator _ _ vaultId _ => sqlLength vaultId ≠ 0
  | .migrateVault _ _ _ replacement => sqlLength replacement.id ≠ 0
  | _ => True

/-- One committed request that meets the side condition. -/
theorem membershipInvariants_of_execute {db db' : Database} {t : Readings} {request : Request}
    {answer : Answer} (hok : request.execute db t = .ok (answer, db')) (hc : Constraints db)
    (hguard : request.keepsMembershipBounds db t) (hi : MembershipInvariants db) :
    MembershipInvariants db' := by
  by_cases hsame : db' = db
  · rwa [hsame]
  have hguard := hguard answer db' hok hsame
  cases (execute_ok hok).written hc with
  | same => exact hi
  | created hid => exact hi.withVault hc hid
  | bound | renamed => exact hi.mapVaults (fun v => by split <;> rfl) (fun v => by split <;> rfl)
  | deleted _ => exact (hi.withRetiredIdentity _ _ _).withoutVaults _
  | @migrated userId tokenHash sourceId replacement v _ howned hid _ _ =>
    have hmoved : MembershipInvariants ((db.withVault (replacement.toRow userId)).mapMemberships
        (.moved sourceId replacement.id)) := by
      refine (hi.withVault hc hid).moveMemberships hguard ?_ ?_
      · intro m hm hvault
        rw [← hvault, hc.membershipVault m hm] at hid
        cases hid
      · intro w hw hwid
        obtain ⟨source, hsource, hsid, hsown⟩ := ownsVault_iff.mp howned
        refine ⟨source, List.mem_append_left _ hsource, hsid, ?_⟩
        rcases List.mem_append.mp hw with hw | hw
        · exact absurd hwid (hasVault_eq_false_iff.mp hid w hw)
        · rw [List.mem_singleton.mp hw]
          exact hsown
    exact (hmoved.withRetiredIdentity _ _ _).withoutVaults _
  | invited howned _ hne hroom htotal hseq =>
    refine (hi.filterMemberships _).withMembership rfl hguard (lt_of_le_of_lt ?_ hroom) htotal
      hseq ?_
    · exact Int.ofNat_le.mpr (List.filter_sublist.filter _).length_le
    · -- the owner of the vault is the one who invites
      intro v hv hvid hown
      obtain ⟨w, hw, hwid, hwown⟩ := ownsVault_iff.mp howned
      rw [hc.eq_of_vaultId hv hw (hvid.trans hwid.symm)] at hown
      exact hne (hown.symm.trans hwown)
  | removed hm hactive => exact hi.revokeMembership hc _ hm hactive hguard
  | committed _ _ => exact hi.commitRevision _ _
  | purged =>
    refine MembershipInvariants.mapVaults ?_ (fun v => by split <;> rfl)
      (fun v => by split <;> rfl)
    exact hi.frame rfl rfl rfl fun _ _ v hv hvid => ⟨v, hv, hvid, rfl⟩

/-- The bounds hold in every state of every run, by any users on any vaults, in which
nobody is removed from a vault that has the full number of revoked rows already. -/
theorem membershipInvariants_of_run {s s' : Store} {requests : List (Request × Readings)}
    (haccepted : s.db.verifyMembershipInvariants = .ok ())
    (hrun : Run (Guarded (fun s a => a.1.keepsMembershipBounds s.db a.2) Store.Step) s requests
      s') :
    s'.db.verifyMembershipInvariants = .ok () ∧ MembershipInvariants s'.db := by
  have hstart : MembershipInvariants s.db :=
    (verifyMembershipInvariants_ok s.constraints).mp haccepted
  have hend : MembershipInvariants s'.db := by
    refine Run.invariant_of_guard (I := fun s : Store => MembershipInvariants s.db) ?_ hstart hrun
    intro s a s' hi hguard hstep
    cases hstep with
    | commit hok => exact membershipInvariants_of_execute hok s.constraints hguard hi
    | rollback _ => exact hi
  exact ⟨(verifyMembershipInvariants_ok s'.constraints).mpr hend, hend⟩

/-- And only there: a removal that revokes a row beyond the limit leaves a database that
the verifier rejects. -/
theorem verifyMembershipInvariants_ne_ok_of_remove {s s' : Store} {t : Readings} {userId : Int}
    {tokenHash vaultId : String} {shareUid removed : Int}
    (hok : (Request.removeCollaborator userId tokenHash vaultId shareUid).execute s.db t =
      .ok (.removed (some removed), s'.db))
    (hfull : maxRevokedMembershipsPerVault ≤ ((s.db.revokedMemberships vaultId).length : Int)) :
    s'.db.verifyMembershipInvariants ≠ .ok () := by
  intro haccepted
  have hbound := ((verifyMembershipInvariants_ok s'.constraints).mp haccepted).revoked vaultId
  cases execute_ok hok with
  | removeCollaborator h =>
    obtain ⟨-, ⟨hnone, -⟩ | ⟨m, hm, -, -, rfl, rfl, hactive, -, -, -, hdb⟩⟩ :=
      removeCollaboratorForSession_ok h
    · cases hnone
    · have := MembershipInvariants.revokedMemberships_revoke s.constraints t.now hm hactive
      rw [hdb] at hbound
      omega

/-! ## A vault with one collaborator and former ones -/

/-- User 1 owns a vault that user 2 was removed from `former` times and is now a member
of again. -/
def collaboration (former : Nat) : Database :=
  { tables := Table.all
    schemaMigrations := []
    sqliteSequence := [⟨some "memberships", former + 1⟩, ⟨some "users", 2⟩]
    users := [
      { id := 1, emailCanonical := "owner@example.test", email := "owner@example.test",
        name := "Owner", passwordHash := "$", status := .active, createdAt := 0, updatedAt := 0,
        role := .admin },
      { id := 2, emailCanonical := "guest@example.test", email := "guest@example.test",
        name := "Guest", passwordHash := "$", status := .active, createdAt := 0, updatedAt := 0,
        role := .user }]
    vaults := [
      { id := "vault", name := "Notes", keyhash := some "k", salt := some "s", host := "h",
        region := "r", encryptionVersion := 3, size := 0, created := 0, password := none,
        version := 0, ownerUserId := 1 }]
    revisions := []
    revisionContent := []
    sessions := [
      { tokenHash := "token", userId := 1, createdAt := 0, expiresAt := 1000, revokedAt := none }]
    retiredVaults := []
    memberships := (List.range former).map (fun n =>
        { id := n + 1, vaultId := "vault", userId := 2, invitedByUserId := 1, acceptedAt := n,
          createdAt := n, revokedAt := some n }) ++
      [{ id := former + 1, vaultId := "vault", userId := 2, invitedByUserId := 1,
         acceptedAt := former, createdAt := former, revokedAt := none }]
    serverSettings := []
    runtimeStorageUsage := some 0 }

/-- The owner removes a collaborator who was never removed before. -/
theorem membershipInvariants_of_first_removal :
    let s : Store := ⟨collaboration 0, by constructor <;> decide⟩
    let request := Request.removeCollaborator 1 "token" "vault" 1
    s.db.verifyMembershipInvariants = .ok () ∧
      (s.next request ⟨500, 501⟩).db.verifyMembershipInvariants = .ok () ∧
      ((s.next request ⟨500, 501⟩).db.revokedMemberships "vault").length = 1 := by
  intro s request
  have haccepted : s.db.verifyMembershipInvariants = .ok () := by decide
  have hrun : Run (Guarded (fun s a => a.1.keepsMembershipBounds s.db a.2) Store.Step) s
      [(request, ⟨500, 501⟩)] (s.next request ⟨500, 501⟩) :=
    .cons ⟨fun _ _ _ _ => by decide, s.step_next _ _⟩ (.nil _)
  exact ⟨haccepted, (membershipInvariants_of_run haccepted hrun).1, by decide⟩

/-- The owner removes a collaborator from a vault that has 64 revoked rows.  The database
was accepted, and is not any more. -/
theorem removal_exceeds_revoked_limit :
    Constraints (collaboration 64) ∧ (collaboration 64).verifyMembershipInvariants = .ok () ∧
      (∃ db', (Request.removeCollaborator 1 "token" "vault" 65).execute (collaboration 64)
          ⟨500, 501⟩ = .ok (.removed (some 2), db') ∧
        db'.verifyMembershipInvariants =
          .error (.bail "per-vault membership row limit exceeded")) := by
  refine ⟨by constructor <;> decide +kernel, by decide +kernel, ?_⟩
  exact ⟨(collaboration 64).mapMemberships (.revoked 65 "vault" 501), by decide +kernel,
    by decide +kernel⟩

end Blackglass
