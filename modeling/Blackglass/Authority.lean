import Blackglass.Access
import Blackglass.Accounts.Tokens
import Blackglass.Tenant

/-!
# Who may write

A request is authenticated when it arrives and committed later, an upload minutes later, so
what counts is what its transaction finds.  Every mutation asks for the session again
(`Effect.authorized`), and each asks in a query of its own for what its user is to the vault
(`Effect.permitted`).  A revocation that commits in between is therefore final, until the
user is let in again: no request but a new invitation or a new vault relates a user to a
vault (`Standing`), and no operation on accounts repairs a revoked session.
-/

namespace Blackglass

open Outcome Transition

/-- What a request needs of its user besides the session. -/
def Request.Permitted (db : Database) : Request → Prop
  | createVault .. => True
  | bindManagedKeyhash userId _ id _ | renameVault userId _ id _ | deleteVault userId _ id
  | migrateVault userId _ id _ | inviteCollaborator userId _ id _ => db.ownsVault userId id = true
  | removeCollaborator userId _ vaultId shareUid =>
    ∃ m ∈ db.memberships, m.id = shareUid ∧ m.vaultId = vaultId ∧ m.active = true ∧
      (m.userId = userId ∨ db.ownsVault userId vaultId = true)
  | addEmptyRevision revision .. | addFileRevision revision .. =>
    Related db revision.userId revision.vaultId
  | restore userId _ vault .. | purge userId _ vault => Related db userId vault

/-! ## Every mutation asks -/

section Effects

variable {db db' : Database} {t : Readings} {request : Request} {answer : Answer}

theorem authorized_of_some {tokenHash : String} {userId now : Int}
    (h : ∃ token, some tokenHash = some token ∧ Authorized db token userId now) :
    Authorized db tokenHash userId now := by
  obtain ⟨token, htoken, hauth⟩ := h
  cases htoken
  exact hauth

/-- A transaction that commits has found the session of its request. -/
theorem Effect.authorized (h : Effect db t request answer db') :
    Authorized db request.tokenHash request.userId t.authorizedAt := by
  cases h with
  | createVault hok => exact authorized_of_some (createVaultInternal_ok hok).1
  | bindManagedKeyhash hok => exact (bindManagedKeyhashForSession_ok hok).1
  | renameVault hok => exact (renameVaultForSession_ok hok).1
  | deleteVault hok => exact authorized_of_some (deleteVaultInternal_ok hok).1
  | migrateVault hok => exact authorized_of_some (migrateVaultInternal_ok hok).1
  | inviteCollaborator hok => exact (inviteCollaboratorForSession_ok hok).1
  | removeCollaborator hok => exact (removeCollaboratorForSession_ok hok).1
  | addEmptyRevision hok => exact authorized_of_some (addEmptyRevisionInternal_ok hok).1.authorized
  | addFileRevision hok => exact authorized_of_some (addFileRevisionInternal_ok hok).1.authorized
  | restore hok =>
    -- also where nothing is found to restore
    simp only [Database.restoreInternal, bind_eq_ok, authorizeMutation_ok, exists_unit] at hok
    exact authorized_of_some hok.1.1
  | purge hok => exact authorized_of_some (purgeInternal_ok hok).1

theorem mapVaults_eq_self {f : VaultRow → VaultRow} (h : ∀ v ∈ db.vaults, f v = v) :
    db.mapVaults f = db := by
  have hvaults : db.vaults.map f = db.vaults := (List.map_congr_left h).trans (List.map_id' _)
  show { db with vaults := db.vaults.map f } = db
  rw [hvaults]

/-- An update of the vault with some id and owner changes nothing unless there is one. -/
theorem ownsVault_of_mapVaults_ne {userId : Int} {id : String} {f : VaultRow → VaultRow}
    (hother : ∀ v, ¬(v.id = id ∧ v.ownerUserId = userId) → f v = v)
    (hne : db.mapVaults f ≠ db) : db.ownsVault userId id = true := by
  by_contra hnot
  refine hne (mapVaults_eq_self fun v hv => hother v fun hboth => ?_)
  exact hnot (ownsVault_iff.mpr ⟨v, hv, hboth.1, hboth.2⟩)

/-- A transaction that changes anything has found its user in the role that it needs. -/
theorem Effect.permitted (h : Effect db t request answer db') (hc : Constraints db)
    (hne : db' ≠ db) : request.Permitted db := by
  cases h with
  | createVault hok => trivial
  | bindManagedKeyhash hok =>
    obtain ⟨-, rfl⟩ := bindManagedKeyhashForSession_ok hok
    refine ownsVault_of_mapVaults_ne (fun v hnot => if_neg ?_) hne
    simp only [Bool.and_eq_true, decide_eq_true_eq]
    exact fun hall => hnot hall.1.1
  | renameVault hok =>
    obtain ⟨-, rfl⟩ := renameVaultForSession_ok hok
    refine ownsVault_of_mapVaults_ne (fun v hnot => if_neg ?_) hne
    simpa only [Bool.and_eq_true, decide_eq_true_eq] using hnot
  | deleteVault hok =>
    obtain ⟨-, ⟨-, -, hsame⟩ | ⟨-, howned, -⟩⟩ := deleteVaultInternal_ok hok
    · exact absurd hsame hne
    · exact howned
  | migrateVault hok =>
    obtain ⟨-, ⟨-, -, hsame⟩ | ⟨-, howned, -⟩⟩ := migrateVaultInternal_ok hok
    · exact absurd hsame hne
    · exact howned
  | inviteCollaborator hok => exact (inviteCollaboratorForSession_ok hok).2.1
  | removeCollaborator hok =>
    obtain ⟨-, ⟨-, hsame⟩ | ⟨m, hm, v, hv, hid, hvault, hactive, hvid, hmay, -⟩⟩ :=
      removeCollaboratorForSession_ok hok
    · exact absurd hsame hne
    · refine ⟨m, hm, hid, hvault, hactive, ?_⟩
      rcases hmay with howner | hself
      · exact .inr (ownsVault_iff.mpr ⟨v, hv, hvid, howner.symm⟩)
      · exact .inl hself.symm
  | addEmptyRevision hok =>
    exact (vaultAccess_isSome_iff hc).mp (addEmptyRevisionInternal_ok hok).1.access
  | addFileRevision hok =>
    exact (vaultAccess_isSome_iff hc).mp (addFileRevisionInternal_ok hok).1.access
  | restore hok =>
    obtain ⟨-, -, hsame⟩ | ⟨target, source, content, hr⟩ := restoreInternal_ok hc hok
    · exact absurd hsame hne
    · exact (vaultAccess_isSome_iff hc).mp hr.checked.access
  | purge hok => exact (vaultAccess_isSome_iff hc).mp (purgeInternal_ok hok).2.1

end Effects

/-! ## Owners and members -/

section Related

variable {db db' : Database} {userId : Int} {vaultId : String}

theorem related_iff : Related db userId vaultId ↔ ∃ v ∈ db.vaults, v.id = vaultId ∧
    (v.ownerUserId = userId ∨
      ∃ m ∈ db.memberships, m.vaultId = vaultId ∧ m.userId = userId ∧ m.active = true) := by
  constructor
  · rintro ⟨v, hv, rfl, hrelated⟩
    exact ⟨v, hv, rfl, ownsOrJoined_iff.mp hrelated⟩
  · rintro ⟨v, hv, rfl, hrelated⟩
    exact ⟨v, hv, rfl, ownsOrJoined_iff.mpr hrelated⟩

theorem Related.of_owns (h : db.ownsVault userId vaultId = true) : Related db userId vaultId := by
  obtain ⟨v, hv, hid, howner⟩ := ownsVault_iff.mp h
  exact related_iff.mpr ⟨v, hv, hid, .inl howner⟩

theorem Related.of_member (hc : Constraints db) {m : MembershipRow} (hm : m ∈ db.memberships)
    (hvault : m.vaultId = vaultId) (huser : m.userId = userId) (hactive : m.active = true) :
    Related db userId vaultId := by
  obtain ⟨v, hv, hid⟩ := hasVault_iff.mp (hc.membershipVault m hm)
  exact related_iff.mpr ⟨v, hv, hid.trans hvault, .inr ⟨m, hm, hvault, huser, hactive⟩⟩

/-- Every role in a vault is a relation to it. -/
theorem Request.Permitted.related (hc : Constraints db) {request : Request}
    (h : request.Permitted db) (hvault : request.vault? = some vaultId) :
    Related db request.userId vaultId := by
  cases request with
  | createVault => cases hvault
  | bindManagedKeyhash | renameVault | deleteVault | migrateVault | inviteCollaborator =>
    cases hvault
    exact .of_owns h
  | removeCollaborator =>
    cases hvault
    obtain ⟨m, hm, -, hid, hactive, huser | howner⟩ := h
    · exact .of_member hc hm hid huser hactive
    · exact .of_owns howner
  | addEmptyRevision | addFileRevision | restore | purge =>
    cases hvault
    exact h

/-- The memberships afterwards are old ones, revoked or not. -/
def MembersKept (db db' : Database) : Prop :=
  ∀ m' ∈ db'.memberships, ∃ m ∈ db.memberships, m.userId = m'.userId ∧ m.vaultId = m'.vaultId ∧
    (m'.active = true → m.active = true)

theorem MembersKept.of_subset (h : db'.memberships ⊆ db.memberships) : MembersKept db db' :=
  fun m hm => ⟨m, h hm, rfl, rfl, id⟩

/-- What a request does to the owners and the members of vaults. -/
inductive Standing (db : Database) (request : Request) (db' : Database) : Prop where
  | keep : OwnersKept none db db' → MembersKept db db' → Standing db request db'
  | create (userId : Int) (tokenHash : String) (vault : Vault) :
      request = .createVault userId tokenHash vault → db.hasVault vault.id = false →
      db'.vaults = db.vaults ++ [vault.toRow userId] → db'.memberships = db.memberships →
      Standing db request db'
  | migrate (userId : Int) (tokenHash sourceId : String) (replacement : Vault) :
      request = .migrateVault userId tokenHash sourceId replacement →
      db.ownsVault userId sourceId = true → db.hasVault replacement.id = false →
      db'.vaults ⊆ db.vaults ++ [replacement.toRow userId] →
      db'.memberships ⊆ db.memberships.map (.moved sourceId replacement.id) →
      Standing db request db'
  | invite (userId : Int) (tokenHash vaultId targetEmail : String) (target : UserRow) :
      request = .inviteCollaborator userId tokenHash vaultId targetEmail →
      db.ownsVault userId vaultId = true → db.invitee targetEmail = some target →
      target.id ≠ userId → db'.vaults = db.vaults →
      (∀ m ∈ db'.memberships, m ∈ db.memberships ∨ m.vaultId = vaultId ∧ m.userId = target.id) →
      Standing db request db'

theorem Effect.standing {t : Readings} {request : Request} {answer : Answer}
    (h : Effect db t request answer db') (hc : Constraints db) : Standing db request db' := by
  have howners := h.ownersKept hc
  cases h.written hc with
  | same => exact .keep (.of_subset (List.Subset.refl _)) (.of_subset (List.Subset.refl _))
  | created hfresh => exact .create _ _ _ rfl hfresh rfl rfl
  | bound | renamed | purged => exact .keep howners (.of_subset (List.Subset.refl _))
  | deleted _ => exact .keep howners (.of_subset (List.filter_subset_self _))
  | migrated _ howned hfresh _ _ =>
    exact .migrate _ _ _ _ rfl howned hfresh (List.filter_subset_self _)
      (List.filter_subset_self _)
  | invited howned htarget hne =>
    refine .invite _ _ _ _ _ rfl howned htarget hne rfl fun m hm => ?_
    rcases List.mem_append.mp hm with hm | hm
    · exact .inl (List.mem_of_mem_filter hm)
    · rw [List.mem_singleton.mp hm]
      exact .inr ⟨rfl, rfl⟩
  | removed _ _ =>
    refine .keep howners fun m' hm' => ?_
    obtain ⟨m, hm, rfl⟩ := List.mem_map.mp hm'
    refine ⟨m, hm, ?_, ?_, fun hactive => ?_⟩
    · rw [MembershipRow.revoked_userId]
    · rw [MembershipRow.revoked_vaultId]
    · by_contra hnot
      simp [MembershipRow.revoked, hnot] at hactive
  | @committed _ row content hadds _ =>
    have hnew : request.newVault? = none := by
      cases request <;> first | rfl | cases hadds
    rw [hnew] at howners
    refine .keep howners ?_
    cases content <;> exact .of_subset (List.Subset.refl _)

/-! ## Owners are not members -/

/-- No owner has a membership in their own vault: what `verify_membership_invariants` checks
and every request keeps. -/
def Database.OwnersApart (db : Database) : Prop :=
  ∀ m ∈ db.memberships, ∀ v ∈ db.vaults, v.id = m.vaultId → v.ownerUserId ≠ m.userId

theorem Database.OwnersApart.of_kept (h : db.OwnersApart) (howners : OwnersKept none db db')
    (hmembers : MembersKept db db') : db'.OwnersApart := by
  intro m' hm' v' hv' hid
  obtain ⟨m, hm, huser, hvault, -⟩ := hmembers m' hm'
  obtain hnew | ⟨v, hv, hvid, howner⟩ := howners v' hv'
  · cases hnew
  · rw [← howner, ← huser]
    exact h m hm v hv (hvid.trans (hid.trans hvault.symm))

theorem Standing.ownersApart {request : Request} (h : Standing db request db')
    (hc : Constraints db) (hapart : db.OwnersApart) : db'.OwnersApart := by
  cases h with
  | keep howners hmembers => exact hapart.of_kept howners hmembers
  | create userId _ vault _ hfresh hvaults hmemberships =>
    intro m hm v hv hid
    rw [hmemberships] at hm
    rw [hvaults] at hv
    rcases List.mem_append.mp hv with hv | hv
    · exact hapart m hm v hv hid
    · -- nobody is a member of a vault that was not there
      have hexists := hc.membershipVault m hm
      rw [← hid, List.mem_singleton.mp hv] at hexists
      exact absurd (hexists.symm.trans hfresh) (by decide)
  | migrate userId _ sourceId replacement _ howned hfresh hvaults hmemberships =>
    intro m' hm' v hv hid
    obtain ⟨m, hm, rfl⟩ := List.mem_map.mp (hmemberships hm')
    rw [MembershipRow.moved_userId]
    rw [MembershipRow.moved_vaultId] at hid
    have hold : m.vaultId ≠ replacement.id := by
      intro heq
      have hexists := hc.membershipVault m hm
      rw [heq, hfresh] at hexists
      cases hexists
    rcases List.mem_append.mp (hvaults hv) with hv | hv
    · split at hid
      · exact absurd hid (hasVault_eq_false_iff.mp hfresh v hv)
      · exact hapart m hm v hv hid
    · rw [List.mem_singleton.mp hv] at hid ⊢
      split at hid
      · -- the members have moved with their owner
        rename_i hmoved
        obtain ⟨source, hsource, hsid, hsowner⟩ := ownsVault_iff.mp howned
        show userId ≠ m.userId
        rw [← hsowner]
        exact hapart m hm source hsource (hsid.trans hmoved.1.symm)
      · exact absurd hid.symm hold
  | invite userId _ vaultId _ target _ howned _ hne hvaults hmemberships =>
    intro m hm v hv hid
    rw [hvaults] at hv
    rcases hmemberships m hm with hm | ⟨hvault, huser⟩
    · exact hapart m hm v hv hid
    · obtain ⟨w, hw, hwid, hwowner⟩ := ownsVault_iff.mp howned
      rw [hc.eq_of_vaultId hv hw (hid.trans (hvault.trans hwid.symm)), hwowner, huser]
      exact hne.symm

/-! ## Who is let in -/

/-- The request lets the user into the vault, if it commits. -/
def Request.Admits (db : Database) (userId : Int) (vaultId : String) : Request → Prop
  | createVault creatorId _ vault => vault.id = vaultId ∧ creatorId = userId
  | migrateVault _ _ sourceId replacement => replacement.id = vaultId ∧ Related db userId sourceId
  | inviteCollaborator _ _ id targetEmail =>
    id = vaultId ∧ ∃ target ∈ db.invitee targetEmail, target.id = userId
  | _ => False

theorem Related.of_kept (h : Related db' userId vaultId) (howners : OwnersKept none db db')
    (hmembers : MembersKept db db') : Related db userId vaultId := by
  obtain ⟨v', hv', hid, hrole⟩ := related_iff.mp h
  obtain hnew | ⟨v, hv, hvid, howner⟩ := howners v' hv'
  · cases hnew
  · refine related_iff.mpr ⟨v, hv, hvid.trans hid, ?_⟩
    rcases hrole with howns | ⟨m', hm', hvault, huser, hactive⟩
    · exact .inl (howner.trans howns)
    · obtain ⟨m, hm, hmuser, hmvault, hmactive⟩ := hmembers m' hm'
      exact .inr ⟨m, hm, hmvault.trans hvault, hmuser.trans huser, hmactive hactive⟩

/-- Nobody comes into a vault but by a request that admits them. -/
theorem Standing.related {request : Request} (h : Standing db request db') (hc : Constraints db)
    (hrelated : Related db' userId vaultId) :
    Related db userId vaultId ∨ request.Admits db userId vaultId := by
  cases h with
  | keep howners hmembers => exact .inl (hrelated.of_kept howners hmembers)
  | create creatorId _ vault hrequest hfresh hvaults hmemberships =>
    obtain ⟨v, hv, hid, hrole⟩ := related_iff.mp hrelated
    rw [hmemberships] at hrole
    rw [hvaults] at hv
    rcases hrole with howns | ⟨m, hm, hvault, huser, hactive⟩
    · rcases List.mem_append.mp hv with hv | hv
      · exact .inl (related_iff.mpr ⟨v, hv, hid, .inl howns⟩)
      · rw [List.mem_singleton.mp hv] at hid howns
        exact .inr (hrequest ▸ ⟨hid, howns⟩)
    · exact .inl (.of_member hc hm hvault huser hactive)
  | migrate ownerId _ sourceId replacement hrequest howned hfresh hvaults hmemberships =>
    obtain ⟨v, hv, hid, hrole⟩ := related_iff.mp hrelated
    rcases hrole with howns | ⟨m', hm', hvault, huser, hactive⟩
    · rcases List.mem_append.mp (hvaults hv) with hv | hv
      · exact .inl (related_iff.mpr ⟨v, hv, hid, .inl howns⟩)
      · rw [List.mem_singleton.mp hv] at hid howns
        have howner : ownerId = userId := howns
        exact .inr (hrequest ▸ ⟨hid, .of_owns (howner ▸ howned)⟩)
    · obtain ⟨m, hm, rfl⟩ := List.mem_map.mp (hmemberships hm')
      rw [MembershipRow.moved_userId] at huser
      rw [MembershipRow.moved_active] at hactive
      rw [MembershipRow.moved_vaultId] at hvault
      split at hvault
      · rename_i hmoved
        exact .inr (hrequest ▸ ⟨hvault, .of_member hc hm hmoved.1 huser hactive⟩)
      · exact .inl (.of_member hc hm hvault huser hactive)
  | invite inviterId _ id targetEmail target hrequest howned htarget hne hvaults hmemberships =>
    obtain ⟨v, hv, hid, hrole⟩ := related_iff.mp hrelated
    rw [hvaults] at hv
    rcases hrole with howns | ⟨m, hm, hvault, huser, hactive⟩
    · exact .inl (related_iff.mpr ⟨v, hv, hid, .inl howns⟩)
    · rcases hmemberships m hm with hm | ⟨hmvault, hmuser⟩
      · exact .inl (.of_member hc hm hvault huser hactive)
      · refine .inr (hrequest ▸ ⟨hmvault.symm.trans hvault, target, htarget, ?_⟩)
        exact hmuser.symm.trans huser

end Related

/-! ## Runs -/

/-- The two databases have the same vaults with all that belongs to them. -/
structure SameVaults (db db' : Database) : Prop where
  vaults : db'.vaults = db.vaults
  revisions : db'.revisions = db.revisions
  revisionContent : db'.revisionContent = db.revisionContent
  memberships : db'.memberships = db.memberships

theorem AccountEffect.sameVaults {phc : PhcParser} {db db' : Database} {now : Int}
    {op : AccountOperation} (h : AccountEffect phc db now op db') : SameVaults db db' := by
  rw [h.frame]
  exact ⟨rfl, rfl, rfl, rfl⟩

/-- A request, or an operation on accounts at a reading of the clock. -/
inductive Activity where
  | request (request : Request) (t : Readings)
  | account (op : AccountOperation) (now : Int)

/-- The activity commits and lets the user of the request into its vault. -/
def Activity.Readmits (request : Request) (db : Database) : Activity → Prop
  | .request other t =>
    (∃ result, other.execute db t = .ok result) ∧
      ∃ vaultId ∈ request.vault?, other.Admits db request.userId vaultId
  | .account .. => False

/-- A stored database and the hashes of the tokens drawn so far. -/
structure AuthorityState where
  store : Store
  issued : List String

namespace AuthorityState

/-- Requests and account operations interleave in any order, at any readings of the clock;
a drawn token is never drawn again. -/
inductive Step (phc : PhcParser) (s : AuthorityState) : Activity → AuthorityState → Prop where
  | request {r : Request} {t : Readings} {store' : Store} :
      s.store.Step (r, t) store' → Step phc s (.request r t) ⟨store', s.issued⟩
  | account {op : AccountOperation} {now : Int} {store' : Store} :
      (∀ tokenHash ∈ op.issues?, tokenHash ∉ s.issued) → s.store.Account phc (op, now) store' →
      Step phc s (.account op now) ⟨store', op.issues?.toList ++ s.issued⟩

variable {phc : PhcParser} {s s' : AuthorityState} {request : Request} {a : Activity}

/-- A request commits, or it fails and nothing has happened. -/
theorem Step.effect_or_same {t : Readings} (h : Step phc s (.request request t) s') :
    (∃ answer, Effect s.store.db t request answer s'.store.db) ∨ s'.store.db = s.store.db := by
  cases h with
  | request hstep =>
    cases hstep with
    | commit hok => exact .inl ⟨_, execute_ok hok⟩
    | rollback _ => exact .inr rfl

theorem Step.ownersApart (h : Step phc s a s') (hapart : s.store.db.OwnersApart) :
    s'.store.db.OwnersApart := by
  cases h with
  | request hstep =>
    cases hstep with
    | commit hok =>
      have hc := s.store.constraints
      exact ((execute_ok hok).standing hc).ownersApart hc hapart
    | rollback _ => exact hapart
  | account _ haccount =>
    have hsame := haccount.effect.sameVaults
    intro m hm v hv
    rw [hsame.memberships] at hm
    rw [hsame.vaults] at hv
    exact hapart m hm v hv

/-! ## Revoked authority -/

/-- The authority of the request is gone: every session of its token is revoked, or its user
is nothing to its vault. -/
inductive Revoked (request : Request) (s : AuthorityState) : Prop where
  | session : request.tokenHash ∈ s.issued →
      (∀ r ∈ s.store.db.sessions, r.tokenHash = request.tokenHash → r.revokedAt ≠ none) →
      Revoked request s
  | access {vaultId : String} : request.vault? = some vaultId →
      ¬Related s.store.db request.userId vaultId → Revoked request s

theorem Revoked.changes_nothing {t : Readings} (h : Revoked request s)
    (hstep : Step phc s (.request request t) s') : s'.store.db = s.store.db := by
  by_contra hne
  obtain ⟨answer, heffect⟩ := hstep.effect_or_same.resolve_right hne
  have hc := s.store.constraints
  cases h with
  | session _ hrevoked =>
    obtain ⟨⟨r, hr, htoken, -, -, hnone⟩, -⟩ := heffect.authorized
    exact hrevoked r hr htoken hnone
  | access hvault hnot => exact hnot ((heffect.permitted hc hne).related hc hvault)

/-- A revoked session of an old token stays revoked. -/
theorem revoked_of_sessionChange {db : Database} {now : Int} {op : AccountOperation}
    {sessions : List SessionRow} {tokenHash : String} (h : SessionChange db now op sessions)
    (hold : tokenHash ∉ op.issues?)
    (hrevoked : ∀ r ∈ db.sessions, r.tokenHash = tokenHash → r.revokedAt ≠ none) :
    ∀ r ∈ sessions, r.tokenHash = tokenHash → r.revokedAt ≠ none := by
  intro r hr htoken
  cases h with
  | keep => exact hrevoked r hr htoken
  | issue _ _ _ =>
    rcases List.mem_append.mp hr with hr | hr
    · exact hrevoked r (List.mem_of_mem_filter hr) htoken
    · rw [List.mem_singleton.mp hr] at htoken
      exact absurd (htoken ▸ rfl) hold
  | renewContext p | renewForVault p =>
    obtain ⟨q, hq, hqt, -, hqr, -⟩ := mem_renewSession hr
    rw [hqr]
    exact hrevoked q hq (hqt ▸ htoken)
  | revoke p _ =>
    obtain ⟨q, hq, -, -, ⟨rfl, -⟩ | hdone⟩ := mem_revokeSessions hr
    · exact hrevoked r hq htoken
    · exact hdone

theorem Revoked.step (h : Revoked request s) (hout : ¬a.Readmits request s.store.db)
    (hstep : Step phc s a s') : Revoked request s' := by
  cases hstep with
  | @request r t store' hstep =>
    cases hstep with
    | rollback _ => exact h
    | commit hok =>
      have heffect := execute_ok hok
      have hc := s.store.constraints
      cases h with
      | session hissued hrevoked =>
        refine .session hissued fun row hrow => ?_
        rw [(heffect.accounts hc).sessions] at hrow
        exact hrevoked row hrow
      | access hvault hnot =>
        refine .access hvault fun hrelated => ?_
        obtain hbefore | hadmits := (heffect.standing hc).related hc hrelated
        · exact hnot hbefore
        · exact hout ⟨⟨_, hok⟩, _, hvault, hadmits⟩
  | account hfresh haccount =>
    cases h with
    | session hissued hrevoked =>
      refine .session (List.mem_append_right _ hissued) ?_
      exact revoked_of_sessionChange haccount.effect.sessionChange
        (fun hnew => hfresh _ hnew hissued) hrevoked
    | access hvault hnot =>
      refine .access hvault fun hrelated => hnot ?_
      have hsame := haccount.effect.sameVaults
      rw [related_iff, hsame.vaults, hsame.memberships] at hrelated
      exact related_iff.mpr hrelated

theorem Revoked.run {as : List Activity} (h : Revoked request s)
    (hrun : Run (Guarded (fun s a => ¬a.Readmits request s.store.db) (Step phc)) s as s') :
    Revoked request s' :=
  hrun.invariant_of_guard (fun hs hout hstep => hs.step hout hstep) h

/-! ## Revocations -/

/-- The activity takes the authority of the request away: its token is signed out, its user
removed from its vault, or the vault deleted or migrated. -/
inductive Revocation (request : Request) (s : AuthorityState) : Activity → Prop where
  | signOut {now : Int} : request.tokenHash ∈ s.issued →
      Revocation request s (.account (.revokeSession request.tokenHash) now)
  | removed {userId shareUid : Int} {tokenHash vaultId : String} {t : Readings} {db' : Database} :
      request.vault? = some vaultId →
      (Request.removeCollaborator userId tokenHash vaultId shareUid).execute s.store.db t =
        .ok (.removed (some request.userId), db') →
      Revocation request s (.request (.removeCollaborator userId tokenHash vaultId shareUid) t)
  | retired {other : Request} {vaultId : String} {t : Readings} {db' : Database} :
      request.vault? = some vaultId → other.retires? = some vaultId →
      other.execute s.store.db t = .ok (.flag true, db') →
      Revocation request s (.request other t)

theorem Step.of_execute {t : Readings} {answer : Answer} {db' : Database}
    (h : Step phc s (.request request t) s')
    (hok : request.execute s.store.db t = .ok (answer, db')) : s'.store.db = db' := by
  cases h with
  | request hstep =>
    cases hstep with
    | commit hok' =>
      rw [hok] at hok'
      cases hok'
      rfl
    | rollback herror =>
      rw [hok] at herror
      cases herror

theorem not_related_of_removed {db db' : Database} (hc : Constraints db) (hapart : db.OwnersApart)
    {userId shareUid removed : Int} {tokenHash vaultId : String} {t : Readings}
    (hok : db.removeCollaboratorForSession userId tokenHash vaultId shareUid t =
      .ok (some removed, db')) : ¬Related db' removed vaultId := by
  obtain ⟨-, ⟨hnone, -⟩ | ⟨m, hm, v, hv, rfl, rfl, hactive, hvid, -, hremoved, rfl⟩⟩ :=
    removeCollaboratorForSession_ok hok
  · cases hnone
  · intro hrelated
    obtain ⟨w, hw, hwid, howns | ⟨n', hn', hvault, huser, hstill⟩⟩ := related_iff.mp hrelated
    · exact hapart m hm w hw hwid (howns.trans (hremoved removed rfl).symm)
    · -- the user had one active row in the vault, and that one is revoked
      obtain ⟨n, hn, rfl⟩ := List.mem_map.mp hn'
      rw [MembershipRow.revoked_vaultId] at hvault
      rw [MembershipRow.revoked_userId] at huser
      have hnactive : n.active = true := by
        by_contra hnot
        simp [MembershipRow.revoked, hnot] at hstill
      have hsame : n = m := by
        refine List.inj_on_of_nodup_map hc.membershipActive
          (List.mem_filter.mpr ⟨hn, hnactive⟩) (List.mem_filter.mpr ⟨hm, hactive⟩) ?_
        rw [hvault, huser, hremoved removed rfl]
      rw [hsame, MembershipRow.revoked, if_pos (by simp [hactive])] at hstill
      cases hstill

/-- A vault that was deleted or migrated is not there any more. -/
theorem not_related_of_retired {db db' : Database} (hc : Constraints db) {t : Readings}
    {request : Request} {userId : Int} {vaultId : String}
    (h : Effect db t request (.flag true) db') (hid : request.retires? = some vaultId) :
    ¬Related db' userId vaultId := by
  rintro ⟨v, hv, hvid, -⟩
  cases h.markers hc with
  | keep hnot => cases (hnot vaultId hid).2
  | retire hid' _ _ hactive =>
    rw [Option.mem_unique hid' hid] at hactive
    exact (hactive vaultId (hasVault_iff.mpr ⟨v, hv, hvid⟩)).2 rfl

theorem Revocation.revoked (h : Revocation request s a) (hapart : s.store.db.OwnersApart)
    (hstep : Step phc s a s') : Revoked request s' := by
  have hc := s.store.constraints
  cases h with
  | signOut hissued =>
    cases hstep with
    | account hfresh haccount =>
      refine .session (List.mem_append_right _ hissued) fun r hr htoken => ?_
      cases haccount with
      | rollback herror => cases herror
      | commit hok =>
        rw [← Except.ok.inj hok] at hr
        obtain ⟨q, -, hqt, -, ⟨rfl, hkept⟩ | hdone⟩ := mem_revokeSessions hr
        · exact absurd htoken (of_decide_eq_false hkept)
        · exact hdone
  | removed hvault hok =>
    refine .access hvault ?_
    rw [hstep.of_execute hok]
    cases execute_ok hok with
    | removeCollaborator hok => exact not_related_of_removed hc hapart hok
  | retired hvault hid hok =>
    refine .access hvault ?_
    rw [hstep.of_execute hok]
    exact not_related_of_retired hc (execute_ok hok) hid

end AuthorityState

open AuthorityState

/-- Whatever requests, sign-ins, sign-outs and changes of accounts are interleaved: a request
that changes the database has found in its own transaction an unrevoked and unexpired session
of its token, bound to its active user, and that user in the role that the request needs.  A
request whose token was signed out, whose user was removed from its vault, or whose vault was
deleted or migrated before it is executed changes nothing, unless a request in between has let
the user in again. -/
theorem writes_are_authorized {phc : PhcParser} {s₀ s : AuthorityState} {as : List Activity}
    (hstart : s₀.store.db.OwnersApart) (hrun : Run (Step phc) s₀ as s) (request : Request) :
    (∀ t s', Step phc s (.request request t) s' → s'.store.db ≠ s.store.db →
      Authorized s.store.db request.tokenHash request.userId t.authorizedAt ∧
        request.Permitted s.store.db) ∧
      ∀ a s₁ bs s₂ t s', Revocation request s a → Step phc s a s₁ →
        Run (Guarded (fun s a => ¬a.Readmits request s.store.db) (Step phc)) s₁ bs s₂ →
        Step phc s₂ (.request request t) s' → s'.store.db = s₂.store.db := by
  constructor
  · intro t s' hstep hne
    obtain ⟨answer, heffect⟩ := hstep.effect_or_same.resolve_right hne
    exact ⟨heffect.authorized, heffect.permitted s.store.constraints hne⟩
  · intro a s₁ bs s₂ t s' hrevocation hrevoke hafter hstep
    have hapart : s.store.db.OwnersApart :=
      Run.invariant (I := fun s : AuthorityState => s.store.db.OwnersApart)
        (fun hs hstep => hstep.ownersApart hs) hstart hrun
    exact ((hrevocation.revoked hapart hrevoke).run hafter).changes_nothing hstep

/-- The collaborator may push into the vault; once the owner has removed them, the same push
changes nothing. -/
theorem writes_are_authorized_of_removal :
    let push := Request.addFileRevision { notePush false 3 1 with userId := 2 }
      collaboratorTokenHash [1, 2, 3] 10 10
    let removal := Request.removeCollaborator 1 someTokenHash "vault" 1
    let removed := sharedStore.next removal ⟨400, 400⟩
    (sharedStore.next push ⟨500, 500⟩).db ≠ sharedStore.db ∧ push.Permitted sharedStore.db ∧
      removed.db ≠ sharedStore.db ∧ (removed.next push ⟨500, 500⟩).db = removed.db := by
  intro push removal removed
  let s : AuthorityState := ⟨sharedStore, [someTokenHash, collaboratorTokenHash]⟩
  have hstart : s.store.db.OwnersApart := by
    unfold Database.OwnersApart
    decide +kernel
  have hchanged : (sharedStore.next push ⟨500, 500⟩).db ≠ sharedStore.db := by decide +kernel
  have hrun : Run (Step onePhc) s [] s := .nil s
  obtain ⟨hwrites, hrevoked⟩ := writes_are_authorized hstart hrun push
  have hok : removal.execute s.store.db ⟨400, 400⟩ = .ok (.removed (some 2), removed.db) := by
    decide +kernel
  have hrevocation : Revocation push s (.request removal ⟨400, 400⟩) := .removed rfl hok
  refine ⟨hchanged, ?_, by decide +kernel, ?_⟩
  · exact (hwrites ⟨500, 500⟩ _ (.request (sharedStore.step_next push _)) hchanged).2
  · exact hrevoked _ _ [] _ ⟨500, 500⟩ _ hrevocation (.request (sharedStore.step_next removal _))
      (.nil _) (.request (removed.step_next push _))

end Blackglass
