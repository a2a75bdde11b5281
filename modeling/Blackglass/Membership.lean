import Blackglass.Auth
import Blackglass.Vaults
import Blackglass.Lib.Text

/-!
# Collaborators: invitations and removals

A membership row is never reused: an invitation adds a row, a removal stamps it with
`revoked_at`.  The revoked rows of a vault are pruned when the next invitation into it
comes, and only then.
-/

namespace Blackglass

open Rows Outcome

/-- `ORDER BY revoked_at,id`. -/
def MembershipRow.revokedBefore (a b : MembershipRow) : Prop :=
  a.revokedAt.getD 0 < b.revokedAt.getD 0 ∨
    (a.revokedAt.getD 0 = b.revokedAt.getD 0 ∧ a.id ≤ b.id)

instance : DecidableRel MembershipRow.revokedBefore := fun a b => by
  unfold MembershipRow.revokedBefore
  infer_instance

/-- `UPDATE memberships SET revoked_at=? WHERE id=? AND vault_id=? AND revoked_at IS NULL`,
on one row. -/
def MembershipRow.revoked (shareUid : Int) (vaultId : String) (now : Int) (m : MembershipRow) :
    MembershipRow :=
  if m.id = shareUid && m.vaultId = vaultId && m.active then { m with revokedAt := some now } else m

namespace Database

def activeMemberships (db : Database) (vaultId : String) : List MembershipRow :=
  db.memberships.filter fun m => m.vaultId = vaultId && m.active

def revokedMemberships (db : Database) (vaultId : String) : List MembershipRow :=
  db.memberships.filter fun m => m.vaultId = vaultId && !m.active

/-- The `DELETE` of an invitation: the oldest revoked rows of the vault go, until one
less than the limit is left. -/
def pruneRevokedMemberships (db : Database) (vaultId : String) : Database :=
  let revoked := db.revokedMemberships vaultId
  let doomed := (revoked.insertionSort MembershipRow.revokedBefore).take
    (max 0 ((revoked.length : Int) - maxRevokedMembershipsPerVault + 1)).toNat
  db.filterMemberships fun m => !doomed.any fun d => d.id = m.id

/-- The answer to an invitation. -/
def shareItem (uid : Int) (target : UserRow) : VaultShareItem :=
  { uid := uid, email := target.email, name := some target.name, accepted := true }

def inviteCollaboratorForSession (db : Database) (ownerUserId : Int)
    (tokenHash vaultId targetEmail : String) (t : Readings) :
    Except DbError (VaultShareItem × Database) := do
  let email ← canonicalizeEmail targetEmail
  db.authorizeAccountMutation (some tokenHash) ownerUserId t.authorizedAt
  rejectIf (db.ownsVault ownerUserId vaultId = false) (.bail "sharing vault unavailable")
  let target ← orReject
    (db.users.find? fun u => u.emailCanonical = email.canonical && u.status = .active)
    (.bail "sharing user unavailable")
  rejectIf (target.id = ownerUserId) (.bail "sharing user unavailable")
  match db.activeMembership vaultId target.id with
  | some m => return (shareItem m.id target, db)
  | none =>
    rejectIf (maxActiveCollaboratorsPerVault ≤ (db.activeMemberships vaultId).length)
      (.bail "collaborator limit reached")
    let db := db.pruneRevokedMemberships vaultId
    rejectIf (maxMemberships ≤ db.memberships.length) (.bail "membership capacity reached")
    rejectIf (maxJsSafeInteger ≤ (db.sequence "memberships").getD 0)
      (.bail "membership sequence exhausted")
    let (uid, db) ← db.insertMembership
      { id := 0, vaultId := vaultId, userId := target.id, invitedByUserId := ownerUserId,
        acceptedAt := t.now, createdAt := t.now, revokedAt := none }
    return (shareItem uid target, db)

/-- The owner of a vault may remove any member, a member only themselves. -/
def removeCollaboratorForSession (db : Database) (actingUserId : Int) (tokenHash vaultId : String)
    (shareUid : Int) (t : Readings) : Except DbError (Option Int × Database) := do
  db.authorizeAccountMutation (some tokenHash) actingUserId t.authorizedAt
  let row := db.memberships.find? fun m => m.id = shareUid && m.vaultId = vaultId && m.active
  match row, db.vault? vaultId with
  | some m, some v =>
    if actingUserId ≠ v.ownerUserId ∧ actingUserId ≠ m.userId then return (none, db)
    else
      let changed := (db.memberships.filter fun m =>
        m.id = shareUid && m.vaultId = vaultId && m.active).length = 1
      return (if changed then some m.userId else none,
        db.mapMemberships (.revoked shareUid vaultId t.now))
  | _, _ => return (none, db)

end Database

/-! ## What the operations did -/

/-- The user whom an invitation of an email is for. -/
def Database.invitee (db : Database) (targetEmail : String) : Option UserRow :=
  match canonicalizeEmail targetEmail with
  | .ok email =>
    db.users.find? fun u => u.emailCanonical = email.canonical && u.status = .active
  | .error _ => none

section

variable {db db' : Database} {userId : Int} {tokenHash vaultId : String} {t : Readings}

/-- The row an invitation inserts. -/
def invitation (vaultId : String) (userId ownerUserId now : Int) : MembershipRow :=
  { id := 0, vaultId := vaultId, userId := userId, invitedByUserId := ownerUserId,
    acceptedAt := now, createdAt := now, revokedAt := none }

theorem insertMembership_ok {row : MembershipRow} {uid : Int}
    (h : db.insertMembership row = .ok (uid, db')) :
    db.hasVault row.vaultId = true ∧ db.hasUser row.userId = true ∧
      db.hasUser row.invitedByUserId = true ∧
      (row.active = true → ∀ m ∈ db.memberships, m.active = true → m.vaultId = row.vaultId →
        m.userId ≠ row.userId) ∧
      uid = db.nextMembershipId ∧ db' = db.withMembership row := by
  simp only [Database.insertMembership, bind_eq_ok, rejectIf_eq_ok, exists_unit, pure_eq_ok,
    Prod.mk.injEq,
    Bool.or_eq_true, Bool.not_eq_true', not_or, Bool.not_eq_false, Bool.and_eq_true,
    List.any_eq_true, decide_eq_true_eq, not_and, not_exists] at h
  obtain ⟨⟨⟨⟨hvault, huser⟩, hinviter⟩, hactive⟩, rfl, rfl⟩ := h
  exact ⟨hvault, huser, hinviter, fun hrow m hm ha hv => hactive hrow m hm ⟨ha, hv⟩, rfl, rfl⟩

/-- An invitation either found the user among the active members and changed nothing, or
had room for one more and added the row of a user who is not the owner. -/
theorem inviteCollaboratorForSession_ok {targetEmail : String} {item : VaultShareItem}
    (h : db.inviteCollaboratorForSession userId tokenHash vaultId targetEmail t =
      .ok (item, db')) :
    Authorized db tokenHash userId t.authorizedAt ∧ db.ownsVault userId vaultId = true ∧
      ((∃ m ∈ db.memberships, m.id = item.uid ∧ m.vaultId = vaultId ∧ m.active = true ∧ db' = db) ∨
        ∃ target ∈ db.users, db.invitee targetEmail = some target ∧ target.id ≠ userId ∧
          ((db.activeMemberships vaultId).length : Int) < maxActiveCollaboratorsPerVault ∧
          ((db.pruneRevokedMemberships vaultId).memberships.length : Int) < maxMemberships ∧
          (db.sequence "memberships").getD 0 < maxJsSafeInteger ∧
          (∀ m ∈ db.memberships, m.active = true → m.vaultId = vaultId → m.userId ≠ target.id) ∧
          item.uid = (db.pruneRevokedMemberships vaultId).nextMembershipId ∧
          db' = (db.pruneRevokedMemberships vaultId).withMembership
            (invitation vaultId target.id userId t.now)) := by
  simp only [Database.inviteCollaboratorForSession, bind_eq_ok, authorizeAccountMutation_some,
    rejectIf_eq_ok, orReject_eq_ok, exists_unit, Bool.not_eq_false] at h
  obtain ⟨email, hemail, hauth, howned, target, htarget, hne, h⟩ := h
  refine ⟨hauth, howned, ?_⟩
  cases hactive : db.activeMembership vaultId target.id with
  | some m =>
    simp only [hactive, pure_eq_ok, Prod.mk.injEq] at h
    obtain ⟨rfl, rfl⟩ := h
    have hp := List.find?_some hactive
    simp only [Bool.and_eq_true, decide_eq_true_eq] at hp
    exact .inl ⟨m, List.mem_of_find?_eq_some hactive, rfl, hp.1.1, hp.2, rfl⟩
  | none =>
    simp only [hactive, bind_eq_ok, rejectIf_eq_ok, exists_unit, not_le, pure_eq_ok,
      Prod.mk.injEq] at h
    obtain ⟨hroom, htotal, hseq, ⟨uid, db₁⟩, hinsert, rfl, rfl⟩ := h
    obtain ⟨-, -, -, -, rfl, rfl⟩ := insertMembership_ok hinsert
    have hinvitee : db.invitee targetEmail = some target := by
      simp [Database.invitee, hemail, htarget]
    refine .inr ⟨target, List.mem_of_find?_eq_some htarget, hinvitee, hne, hroom, htotal, hseq,
      ?_, rfl, rfl⟩
    intro m hm ha hv hu
    have := List.find?_eq_none.mp hactive m hm
    simp [hv, hu, ha] at this

/-- A removal either changed nothing or revoked the named row, for the vault's owner or
for the member themselves. -/
theorem removeCollaboratorForSession_ok {shareUid : Int} {removed : Option Int}
    (h : db.removeCollaboratorForSession userId tokenHash vaultId shareUid t =
      .ok (removed, db')) :
    Authorized db tokenHash userId t.authorizedAt ∧
      ((removed = none ∧ db' = db) ∨
        ∃ m ∈ db.memberships, ∃ v ∈ db.vaults, m.id = shareUid ∧ m.vaultId = vaultId ∧
          m.active = true ∧ v.id = vaultId ∧ (userId = v.ownerUserId ∨ userId = m.userId) ∧
          (∀ u ∈ removed, m.userId = u) ∧
          db' = db.mapMemberships (.revoked shareUid vaultId t.now)) := by
  simp only [Database.removeCollaboratorForSession, bind_eq_ok, authorizeAccountMutation_some,
    exists_unit] at h
  obtain ⟨hauth, h⟩ := h
  refine ⟨hauth, ?_⟩
  cases hm : db.memberships.find? fun m => m.id = shareUid && m.vaultId = vaultId && m.active with
  | none =>
    simp only [hm, pure_eq_ok, Prod.mk.injEq] at h
    exact .inl ⟨h.1.symm, h.2.symm⟩
  | some m =>
    cases hv : db.vault? vaultId with
    | none =>
      simp only [hm, hv, pure_eq_ok, Prod.mk.injEq] at h
      exact .inl ⟨h.1.symm, h.2.symm⟩
    | some v =>
      simp only [hm, hv] at h
      split at h
      · simp only [pure_eq_ok, Prod.mk.injEq] at h
        exact .inl ⟨h.1.symm, h.2.symm⟩
      · rename_i hmay
        simp only [pure_eq_ok, Prod.mk.injEq] at h
        obtain ⟨rfl, rfl⟩ := h
        obtain ⟨hvmem, hvid⟩ := mem_of_vault? hv
        have hp := List.find?_some hm
        simp only [Bool.and_eq_true, decide_eq_true_eq] at hp
        refine .inr ⟨m, List.mem_of_find?_eq_some hm, v, hvmem, hp.1.1, hp.1.2, hp.2, hvid, ?_,
          ?_, rfl⟩
        · by_contra hnot
          exact hmay (not_or.mp hnot)
        · intro u hu
          split at hu
          · exact Option.some.inj hu
          · cases hu

end

/-! ## The schema's constraints -/

namespace MembershipRow

variable (shareUid : Int) (vaultId : String) (now : Int) (m : MembershipRow)

@[simp] theorem revoked_id : (m.revoked shareUid vaultId now).id = m.id := by
  unfold revoked
  split <;> rfl

@[simp] theorem revoked_vaultId : (m.revoked shareUid vaultId now).vaultId = m.vaultId := by
  unfold revoked
  split <;> rfl

@[simp] theorem revoked_userId : (m.revoked shareUid vaultId now).userId = m.userId := by
  unfold revoked
  split <;> rfl

@[simp] theorem revoked_invitedByUserId :
    (m.revoked shareUid vaultId now).invitedByUserId = m.invitedByUserId := by
  unfold revoked
  split <;> rfl

theorem revoked_active : (m.revoked shareUid vaultId now).active =
    (m.active && !(m.id = shareUid && m.vaultId = vaultId)) := by
  unfold revoked
  cases ha : m.active
  · simp [ha]
  · by_cases h : m.id = shareUid ∧ m.vaultId = vaultId
    · simp [h, active]
    · simpa [h, ha] using not_and_or.mp h

end MembershipRow

namespace Constraints

variable {db : Database}

theorem revokeMembership (h : Constraints db) (shareUid : Int) (vaultId : String) (now : Int) :
    Constraints (db.mapMemberships (.revoked shareUid vaultId now)) := by
  have hrow : ∀ {P : Int → Prop} {f : MembershipRow → Int},
      (∀ m, f (m.revoked shareUid vaultId now) = f m) → (∀ m ∈ db.memberships, P (f m)) →
      ∀ m ∈ (db.mapMemberships (.revoked shareUid vaultId now)).memberships, P (f m) := by
    intro P f hf hold m hm
    obtain ⟨n, hn, rfl⟩ := List.mem_map.mp hm
    rw [hf]
    exact hold n hn
  refine { h with
    membershipId := ?_
    membershipActive := ?_
    membershipVault := ?_
    membershipUser := hrow (P := fun u => db.hasUser u = true) (by simp) h.membershipUser
    membershipInviter := hrow (P := fun u => db.hasUser u = true) (by simp) h.membershipInviter }
  · simpa [Function.comp_def] using h.membershipId
  · simp only [Database.mapMemberships_memberships, List.filter_map, List.map_map,
      Function.comp_def, MembershipRow.revoked_vaultId, MembershipRow.revoked_userId]
    refine h.membershipActive.sublist (List.Sublist.map _ ?_)
    refine List.monotone_filter_right _ fun m hm => ?_
    rw [MembershipRow.revoked_active] at hm
    exact (Bool.and_eq_true_iff.mp hm).1
  · intro m hm
    obtain ⟨n, hn, rfl⟩ := List.mem_map.mp hm
    exact n.revoked_vaultId shareUid vaultId now ▸ h.membershipVault n hn

theorem inviteCollaboratorForSession (h : Constraints db) {db' : Database} {userId : Int}
    {tokenHash vaultId targetEmail : String} {t : Readings} {item : VaultShareItem}
    (hok : db.inviteCollaboratorForSession userId tokenHash vaultId targetEmail t =
      .ok (item, db')) : Constraints db' := by
  obtain ⟨hauth, howned, ⟨-, -, -, -, -, rfl⟩ | ⟨target, htarget, -, -, -, -, -, hfresh, -, rfl⟩⟩ :=
    inviteCollaboratorForSession_ok hok
  · exact h
  · obtain ⟨v, hv, hvid, -⟩ := ownsVault_iff.mp howned
    refine (h.filterMemberships _).withMembership (hasVault_iff.mpr ⟨v, hv, hvid⟩)
      (hasUser_iff.mpr ⟨target, htarget, rfl⟩) hauth.hasUser ?_
    intro _ m hm
    exact hfresh m (List.mem_of_mem_filter hm)

theorem removeCollaboratorForSession (h : Constraints db) {db' : Database} {userId : Int}
    {tokenHash vaultId : String} {shareUid : Int} {t : Readings} {removed : Option Int}
    (hok : db.removeCollaboratorForSession userId tokenHash vaultId shareUid t =
      .ok (removed, db')) : Constraints db' := by
  obtain ⟨-, ⟨-, rfl⟩ | ⟨-, -, -, -, -, -, -, -, -, -, rfl⟩⟩ :=
    removeCollaboratorForSession_ok hok
  · exact h
  · exact h.revokeMembership shareUid vaultId t.now

end Constraints

end Blackglass
