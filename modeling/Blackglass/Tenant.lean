import Blackglass.History
import Blackglass.Markers

/-!
# Tenants

Vaults share tables: revision `uid`s and membership ids are server-wide, paths repeat, and
deletes reach other tables by cascades.  `Database.tenant` cuts out of all tables what
belongs to one vault.  A request is on one vault, and every other existing tenant is the
same after it; of the account tables a request changes nothing at all.
-/

namespace Blackglass

open Rows Outcome Retention

/-- Everything that belongs to one vault. -/
@[ext]
structure Tenant where
  vaults : List VaultRow
  revisions : List RevisionRow
  /-- The content row of each revision, if it has one. -/
  contents : List (Option RevisionContentRow)
  memberships : List MembershipRow
deriving DecidableEq

namespace Database

/-- `SELECT .. FROM revision_content WHERE uid=?`. -/
def content? (db : Database) (uid : Int) : Option RevisionContentRow :=
  db.revisionContent.find? fun c => c.uid = uid

def membershipsOf (db : Database) (id : String) : List MembershipRow :=
  db.memberships.filter fun m => m.vaultId = id

def tenant (db : Database) (id : String) : Tenant where
  vaults := db.vaults.filter fun v => v.id = id
  revisions := db.revisionsOf id
  contents := (db.revisionsOf id).map fun r => db.content? r.uid
  memberships := db.membershipsOf id

end Database

/-! ## Statements that leave a tenant alone -/

section Frame

variable {db db' : Database} {id : String}

theorem filter_map_of_ne {vaults : List VaultRow} {f : VaultRow → VaultRow}
    (hid : ∀ v, (f v).id = v.id) (hsame : ∀ v, v.id = id → f v = v) :
    ((vaults.map f).filter fun v => v.id = id) = vaults.filter fun v => v.id = id := by
  rw [List.filter_map]
  have hfilter : (vaults.filter ((fun v => decide (v.id = id)) ∘ f)) =
      vaults.filter fun v => v.id = id :=
    List.filter_congr fun v _ => by rw [Function.comp_apply, hid]
  rw [hfilter]
  refine (List.map_congr_left fun v hv => ?_).trans (List.map_id' _)
  exact hsame v (by simpa using (List.mem_filter.mp hv).2)

theorem tenant_mapVaults {f : VaultRow → VaultRow} (hid : ∀ v, (f v).id = v.id)
    (hsame : ∀ v, v.id = id → f v = v) : (db.mapVaults f).tenant id = db.tenant id := by
  ext1
  · exact filter_map_of_ne hid hsame
  · rfl
  · rfl
  · rfl

theorem tenant_refreshVault {other : String} (hne : id ≠ other) (version : Int) :
    (db.refreshVault other version).tenant id = db.tenant id := by
  refine tenant_mapVaults (fun v => by split <;> rfl) fun v hv => ?_
  rw [if_neg (hv ▸ hne)]

theorem tenant_withVault {row : VaultRow} (hne : row.id ≠ id) :
    (db.withVault row).tenant id = db.tenant id := by
  ext1
  · simp [Database.tenant, hne]
  · rfl
  · rfl
  · rfl

theorem tenant_of_memberships (hmemberships : db'.membershipsOf id = db.membershipsOf id)
    (hvaults : db'.vaults = db.vaults) (hrevisions : db'.revisions = db.revisions)
    (hcontent : db'.revisionContent = db.revisionContent) : db'.tenant id = db.tenant id := by
  simp only [Database.tenant, Database.revisionsOf, Database.content?, hvaults, hrevisions,
    hcontent, hmemberships]

theorem tenant_withMembership {row : MembershipRow} (hne : row.vaultId ≠ id) :
    (db.withMembership row).tenant id = db.tenant id :=
  tenant_of_memberships (by simp [Database.membershipsOf, hne]) rfl rfl rfl

theorem tenant_mapMemberships {f : MembershipRow → MembershipRow}
    (hmoved : ∀ m, (f m).vaultId = id → m.vaultId = id) (hsame : ∀ m, m.vaultId = id → f m = m) :
    (db.mapMemberships f).tenant id = db.tenant id := by
  refine tenant_of_memberships ?_ rfl rfl rfl
  unfold Database.membershipsOf
  rw [Database.mapMemberships_memberships, List.filter_map]
  have hfilter : (db.memberships.filter ((fun m => decide (m.vaultId = id)) ∘ f)) =
      db.memberships.filter fun m => m.vaultId = id := by
    refine List.filter_congr fun m _ => ?_
    rw [Function.comp_apply, decide_eq_decide]
    exact ⟨hmoved m, fun hm => (hsame m hm).symm ▸ hm⟩
  rw [hfilter]
  refine (List.map_congr_left fun m hm => ?_).trans (List.map_id' _)
  exact hsame m (by simpa using (List.mem_filter.mp hm).2)

theorem tenant_filterMemberships {p : MembershipRow → Bool}
    (hkept : ∀ m ∈ db.memberships, m.vaultId = id → p m = true) :
    (db.filterMemberships p).tenant id = db.tenant id := by
  refine tenant_of_memberships ?_ rfl rfl rfl
  unfold Database.membershipsOf
  rw [Database.filterMemberships_memberships, List.filter_filter]
  refine List.filter_congr fun m hm => ?_
  by_cases hid : m.vaultId = id
  · simp [hid, hkept m hm hid]
  · simp [hid]

theorem revisionsOf_withoutRevisions {p : RevisionRow → Bool}
    (hkept : ∀ r ∈ db.revisions, r.vaultId = id → p r = false) :
    (db.withoutRevisions p).revisionsOf id = db.revisionsOf id := by
  unfold Database.revisionsOf
  rw [Database.withoutRevisions_revisions, List.filter_filter]
  refine List.filter_congr fun r hr => ?_
  by_cases hid : r.vaultId = id
  · simp [hid, hkept r hr hid]
  · simp [hid]

theorem contents_withoutRevisions (hc : Constraints db) {p : RevisionRow → Bool}
    (hkept : ∀ r ∈ db.revisions, r.vaultId = id → p r = false) :
    ((db.withoutRevisions p).revisionsOf id).map (fun r => (db.withoutRevisions p).content? r.uid) =
      (db.revisionsOf id).map fun r => db.content? r.uid := by
  rw [revisionsOf_withoutRevisions hkept]
  refine List.map_congr_left fun r hr => ?_
  obtain ⟨hmem, hid⟩ := mem_revisionsOf.mp hr
  exact RevisionTracking.find_content_withoutRevisions hc hmem (hkept r hmem hid)

theorem tenant_withoutRevisions (hc : Constraints db) {p : RevisionRow → Bool}
    (hkept : ∀ r ∈ db.revisions, r.vaultId = id → p r = false) :
    (db.withoutRevisions p).tenant id = db.tenant id := by
  ext1
  · rfl
  · exact revisionsOf_withoutRevisions hkept
  · exact contents_withoutRevisions hc hkept
  · rfl

/-- The cascades of a deleted vault reach what refers to it. -/
theorem tenant_withoutVaults (hc : Constraints db) {p : VaultRow → Bool}
    (hkept : ∀ v ∈ db.vaults, v.id = id → p v = false) :
    (db.withoutVaults p).tenant id = db.tenant id := by
  have hnone : ∀ x, x = id → (db.vaults.any fun v => p v && decide (v.id = x)) = false := by
    intro x hx
    rw [hx, List.any_eq_false]
    intro v hv hboth
    obtain ⟨hp, hid⟩ : p v = true ∧ v.id = id := by simpa using hboth
    rw [hkept v hv hid] at hp
    cases hp
  have hrevisions : ∀ r ∈ db.revisions, r.vaultId = id →
      (db.vaults.any fun v => p v && decide (v.id = r.vaultId)) = false :=
    fun r _ hid => hnone r.vaultId hid
  ext1
  · show ((db.vaults.filter fun v => !p v).filter fun v => v.id = id) = _
    rw [List.filter_filter]
    refine List.filter_congr fun v hv => ?_
    by_cases hid : v.id = id
    · simp [hid, hkept v hv hid]
    · simp [hid]
  · exact revisionsOf_withoutRevisions hrevisions
  · exact contents_withoutRevisions hc hrevisions
  · show ((db.memberships.filter _).filter fun m => m.vaultId = id) = _
    rw [List.filter_filter]
    refine List.filter_congr fun m _ => ?_
    by_cases hid : m.vaultId = id
    · simp [hid, hnone id rfl]
    · simp [hid]

/-- A new revision, with its bytes, is of one vault. -/
theorem tenant_commitRevision {row : RevisionRow} {content : Option Blob}
    (hne : row.vaultId ≠ id) : (db.commitRevision row content).tenant id = db.tenant id := by
  have hrevisions : (db.commitRevision row content).revisionsOf id = db.revisionsOf id := by
    simp [Database.revisionsOf, hne]
  ext1
  · show ((db.commitRevision row content).vaults.filter fun v => v.id = id) = _
    cases content <;>
      exact filter_map_of_ne (fun v => by split <;> rfl) fun v hv => if_neg (hv ▸ hne.symm)
  · exact hrevisions
  · show ((db.commitRevision row content).revisionsOf id).map _ = _
    rw [hrevisions]
    refine List.map_congr_left fun r hr => ?_
    have hold : db.nextRevisionUid ≠ r.uid :=
      (lt_nextRowid (List.mem_map_of_mem (mem_revisionsOf.mp hr).1)).ne'
    unfold Database.content?
    rw [commitRevision_revisionContent, List.find?_append]
    cases content <;> simp [hold]
  · show (db.commitRevision row content).membershipsOf id = _
    cases content <;> rfl

end Frame

/-! ## Requests -/

section Effects

variable {db db' : Database} {t : Readings} {request : Request} {answer : Answer}

/-- An invitation prunes the revoked members of its own vault. -/
theorem tenant_pruneRevokedMemberships (hc : Constraints db) {id vaultId : String}
    (hne : id ≠ vaultId) : (db.pruneRevokedMemberships vaultId).tenant id = db.tenant id := by
  refine tenant_filterMemberships fun m hm hid => ?_
  rw [Bool.not_eq_true', List.any_eq_false]
  intro d hd hsame
  have hrevoked : d ∈ db.revokedMemberships vaultId :=
    (List.perm_insertionSort _ _).mem_iff.mp (List.mem_of_mem_take hd)
  obtain ⟨hdmem, hdvault⟩ := List.mem_filter.mp hrevoked
  have heq : d = m := hc.eq_of_membershipId hdmem hm (by simpa using hsame)
  rw [heq] at hdvault
  have hvault : m.vaultId = vaultId := by simpa using (Bool.and_eq_true_iff.mp hdvault).1
  exact hne (hid.symm.trans hvault)

theorem tenant_withRetiredIdentity (db : Database) (id vaultId : String)
    (ownerUserId retiredAt : Int) :
    (db.withRetiredIdentity vaultId ownerUserId retiredAt).tenant id = db.tenant id := rfl

/-- A request leaves the existing tenants it is not on. -/
theorem Effect.tenant (h : Effect db t request answer db') (hc : Constraints db) {id : String}
    (hid : db.hasVault id = true) (hother : id ∉ request.vault?) :
    db'.tenant id = db.tenant id := by
  cases h.written hc with
  | same => rfl
  | created hnew =>
    refine tenant_withVault fun heq => ?_
    rw [← heq] at hid
    cases hnew.symm.trans hid
  | bound | renamed =>
    refine tenant_mapVaults (fun v => by split <;> rfl) fun v hv => ?_
    have hne : v.id ≠ _ := fun heq => hother (hv ▸ heq ▸ rfl)
    simp [hne]
  | deleted hv =>
    rw [tenant_withoutVaults (hc.withRetiredIdentity (hc.vaultOwner _ hv))]
    · exact tenant_withRetiredIdentity ..
    · intro w _ hw
      have hne : w.id ≠ _ := fun heq => hother (hw ▸ heq ▸ rfl)
      simp [hne]
  | migrated huser _ hnew hv _ =>
    have hfresh : ∀ x, x = id → _ ≠ x := fun x hx heq => by
      rw [← hx, ← heq] at hid
      cases hnew.symm.trans hid
    rw [tenant_withoutVaults (hc.withReplacement hnew huser (hc.vaultOwner _ hv)),
      tenant_withRetiredIdentity, tenant_mapMemberships, tenant_withVault (hfresh id rfl)]
    · intro m hm
      rw [MembershipRow.moved_vaultId] at hm
      split at hm
      · exact absurd hm (hfresh id rfl)
      · exact hm
    · intro m hm
      have hne : m.vaultId ≠ _ := fun heq => hother (hm ▸ heq ▸ rfl)
      simp [MembershipRow.moved, hne]
    · intro w _ hw
      have hne : w.id ≠ _ := fun heq => hother (hw ▸ heq ▸ rfl)
      simp [hne]
  | invited =>
    have hne : id ≠ _ := fun heq => hother (heq ▸ rfl)
    rw [tenant_withMembership hne.symm, tenant_pruneRevokedMemberships hc hne]
  | removed _ _ =>
    refine tenant_mapMemberships (fun m hm => ?_) fun m hm => ?_
    · rwa [MembershipRow.revoked_vaultId] at hm
    · have hne : m.vaultId ≠ _ := fun heq => hother (hm ▸ heq ▸ rfl)
      simp [MembershipRow.revoked, hne]
  | committed _ hvault => exact tenant_commitRevision fun heq => hother (heq ▸ hvault)
  | purged =>
    have hne : id ≠ _ := fun heq => hother (heq ▸ rfl)
    rw [tenant_refreshVault hne, tenant_withoutRevisions hc]
    intro r _ hr
    simp [Database.superseded, hr, hne]

/-- The account tables are as they were. -/
structure SameAccounts (db db' : Database) : Prop where
  users : db'.users = db.users
  sessions : db'.sessions = db.sessions
  serverSettings : db'.serverSettings = db.serverSettings

/-- No request touches the account tables. -/
theorem Effect.accounts (h : Effect db t request answer db') (hc : Constraints db) :
    SameAccounts db db' := by
  cases h.written hc with
  | @committed _ _ content _ _ => cases content <;> exact ⟨rfl, rfl, rfl⟩
  | _ => exact ⟨rfl, rfl, rfl⟩

/-- Only the owner of the vault a request is on may lose markers. -/
theorem Effect.markersOf (h : Effect db t request answer db') (hc : Constraints db)
    (hdisjoint : ∀ r ∈ db.retiredVaults, db.hasVault r.id = false) {id : String}
    (hid : id ∈ request.vault?) {owner : Int} (howner : db.ownsVault owner id = false) :
    db'.retiredVaults.filter (ownedBy owner) = db.retiredVaults.filter (ownedBy owner) := by
  cases h.markers hc with
  | keep _ hretired _ => rw [hretired]
  | retire hretires _ hone _ =>
    obtain ⟨v, hv, hvid, hvowner⟩ := hone.owned
    have hsame : id = v.id := by
      rw [hvid]
      cases request with
      | deleteVault _ _ _ => exact Option.some.inj (hid.symm.trans hretires)
      | migrateVault _ _ _ _ => exact Option.some.inj (hid.symm.trans hretires)
      | _ => cases hretires
    have hne : request.userId ≠ owner := by
      intro heq
      rw [ownsVault_iff.mpr ⟨v, hv, hsame.symm, hvowner.trans heq⟩] at howner
      cases howner
    have hkept : ∀ rows : List RetiredVaultRow, (∀ r ∈ rows, r ∈ db.retiredVaults) →
        (rows.filter fun r => r.id ≠ v.id) = rows := by
      refine fun rows hrows => List.filter_eq_self.mpr fun r hr => ?_
      have hnone := hasVault_eq_false_iff.mp (hdisjoint r (hrows r hr)) v hv
      simpa using hnone.symm
    rw [hone.markers, ← hvid, hkept _ fun r hr => retain_sublist.subset hr, List.filter_append,
      filter_retain_of_disjoint (ownedBy_disjoint hne.symm)]
    simp [ownedBy, hne]

/-! ## Who is charged -/

theorem ownerStored_congr (o : Int) (hrevisions : db'.revisions = db.revisions)
    (howns : ∀ r ∈ db.revisions, db'.ownsVault o r.vaultId = db.ownsVault o r.vaultId) :
    db'.ownerStoredCiphertextSize o = db.ownerStoredCiphertextSize o := by
  unfold Database.ownerStoredCiphertextSize
  rw [hrevisions]
  exact congrArg _ (List.filter_congr howns)

theorem ownerStored_refreshVault (db : Database) (id : String) (version o : Int) :
    (db.refreshVault id version).ownerStoredCiphertextSize o = db.ownerStoredCiphertextSize o :=
  ownerStored_congr o rfl fun r _ =>
    ownsVault_mapVaults (fun v => by split <;> rfl) (fun v => by split <;> rfl) o r.vaultId

theorem ownerStored_withVault (hc : Constraints db) {row : VaultRow}
    (hnew : db.hasVault row.id = false) (o : Int) :
    (db.withVault row).ownerStoredCiphertextSize o = db.ownerStoredCiphertextSize o := by
  refine ownerStored_congr o rfl fun r hr => ?_
  have hne : row.id ≠ r.vaultId := by
    intro heq
    have hvault := hc.revisionVault r hr
    rw [← heq, hnew] at hvault
    cases hvault
  simp [Database.ownsVault, hne]

/-- Whoever does not own the revisions that go is not concerned. -/
theorem ownerStored_withoutRevisions {p : RevisionRow → Bool} {o : Int}
    (hother : ∀ r ∈ db.revisions, p r = true → db.ownsVault o r.vaultId = false) :
    (db.withoutRevisions p).ownerStoredCiphertextSize o = db.ownerStoredCiphertextSize o := by
  show sumOf _ ((db.revisions.filter fun r => !p r).filter fun r => db.ownsVault o r.vaultId) =
    sumOf _ (db.revisions.filter fun r => db.ownsVault o r.vaultId)
  rw [List.filter_filter]
  refine congrArg _ (List.filter_congr fun r hr => ?_)
  cases hp : p r with
  | false => simp
  | true => simp [hother r hr hp]

theorem ownerStored_withoutVaults (hc : Constraints db) {p : VaultRow → Bool} {o : Int}
    (hother : ∀ v ∈ db.vaults, p v = true → v.ownerUserId ≠ o) :
    (db.withoutVaults p).ownerStoredCiphertextSize o = db.ownerStoredCiphertextSize o := by
  have howns : ∀ id, (db.withoutVaults p).ownsVault o id = db.ownsVault o id := by
    intro id
    rw [Bool.eq_iff_iff, ownsVault_iff, ownsVault_iff]
    constructor
    · rintro ⟨v, hv, hid, howner⟩
      exact ⟨v, (List.mem_filter.mp hv).1, hid, howner⟩
    · rintro ⟨v, hv, hid, howner⟩
      refine ⟨v, List.mem_filter.mpr ⟨hv, ?_⟩, hid, howner⟩
      rw [Bool.not_eq_true', Bool.eq_false_iff]
      exact fun hp => hother v hv hp howner
  have hcongr : (db.withoutVaults p).ownerStoredCiphertextSize o =
      (db.withoutRevisions fun r => db.vaults.any fun v => p v && v.id = r.vaultId
        ).ownerStoredCiphertextSize o :=
    ownerStored_congr o rfl fun r _ => howns r.vaultId
  rw [hcongr]
  refine ownerStored_withoutRevisions fun r _ hgone => ?_
  obtain ⟨v, hv, hboth⟩ := List.any_eq_true.mp hgone
  obtain ⟨hp, hid⟩ : p v = true ∧ v.id = r.vaultId := by simpa using hboth
  rw [Bool.eq_false_iff]
  intro howned
  obtain ⟨w, hw, hwid, howner⟩ := ownsVault_iff.mp howned
  rw [hc.eq_of_vaultId hw hv (hwid.trans hid.symm)] at howner
  exact hother v hv hp howner

/-- A request charges nobody but the owner of the vault it is on. -/
theorem Effect.ownerStored (h : Effect db t request answer db') (hc : Constraints db) {id : String}
    (hid : id ∈ request.vault?) {o : Int} (hnot : db.ownsVault o id = false) :
    db'.ownerStoredCiphertextSize o = db.ownerStoredCiphertextSize o := by
  have hdeleted : ∀ v : VaultRow, v ∈ db.vaults → v.id = id → v.ownerUserId ≠ o := by
    intro v hv hvid howner
    rw [ownsVault_iff.mpr ⟨v, hv, hvid, howner⟩] at hnot
    cases hnot
  cases h.written hc with
  | same | invited | removed => rfl
  | created _ => cases hid
  | bound | renamed =>
    exact ownerStored_congr o rfl fun r _ =>
      ownsVault_mapVaults (fun v => by split <;> rfl) (fun v => by split <;> rfl) o _
  | deleted hv =>
    cases hid
    have howner := hc.vaultOwner _ hv
    refine (ownerStored_withoutVaults (hc.withRetiredIdentity howner) ?_).trans rfl
    intro w hw hp
    exact hdeleted w hw (by simpa using (Bool.and_eq_true_iff.mp hp).1)
  | migrated huser _ hnew hv hvid =>
    cases hid
    refine (ownerStored_withoutVaults (hc.withReplacement hnew huser
      (hc.vaultOwner _ hv)) fun w hw hp => ?_).trans (ownerStored_withVault hc hnew o)
    have hwid : w.id = id := by simpa using (Bool.and_eq_true_iff.mp hp).1
    rcases List.mem_append.mp hw with hw | hw
    · exact hdeleted w hw hwid
    · rw [List.mem_singleton.mp hw] at hwid
      exact absurd (hvid.trans hwid.symm) (hasVault_eq_false_iff.mp hnew _ hv)
  | committed _ hvault =>
    obtain rfl := Option.some.inj (hvault.symm.trans hid)
    rw [ownerStored_commitRevision, hnot]
    simp
  | purged =>
    cases hid
    rw [ownerStored_refreshVault]
    refine ownerStored_withoutRevisions fun r _ hgone => ?_
    have hvault : r.vaultId = id := by simpa using (Bool.and_eq_true_iff.mp hgone).1
    rw [hvault, hnot]

/-- A stored revision is of the request's vault, and charged to whoever owns that. -/
theorem Effect.charged (h : Effect db t request answer db') (hc : Constraints db)
    {revision : Revision} (hrevision : revision ∈ answer.revision?) (o : Int) :
    request.vault? = some revision.vaultId ∧
      db'.ownerStoredCiphertextSize o = db.ownerStoredCiphertextSize o +
        if db.ownsVault o revision.vaultId then revision.size else 0 := by
  cases h with
  | addEmptyRevision hok =>
    cases hrevision
    obtain ⟨-, -, -, -, rfl, rfl⟩ := addEmptyRevisionInternal_ok hok
    exact ⟨rfl, ownerStored_commitRevision _ _ o⟩
  | addFileRevision hok =>
    cases hrevision
    obtain ⟨-, -, -, -, -, -, -, rfl, rfl⟩ := addFileRevisionInternal_ok hok
    exact ⟨rfl, ownerStored_commitRevision _ _ o⟩
  | restore hok =>
    obtain ⟨rfl, -, -⟩ | ⟨target, source, content, hr⟩ := restoreInternal_ok hc hok
    · cases hrevision
    · rw [hr.result]
      have hrestored : some revision = _ := (Option.mem_def.mp hrevision).symm.trans hr.answer
      rw [Option.some.inj hrestored]
      exact ⟨congrArg some hr.source_vault.symm, ownerStored_commitRevision _ _ o⟩
  | _ => cases hrevision

end Effects

/-- A request on a vault that commits leaves the rows of every other existing vault, all
users and all sessions; it leaves the markers and the stored bytes of everybody who does not
own the vault, whoever has made it, and charges a new revision to the owner. -/
theorem writes_stay_in_tenant {s : Store} {db' : Database} {request : Request} {t : Readings}
    {answer : Answer} {vaultId : String}
    (hdisjoint : ∀ r ∈ s.db.retiredVaults, s.db.hasVault r.id = false)
    (hvault : request.vault? = some vaultId)
    (hok : request.execute s.db t = .ok (answer, db')) :
    (∀ id, s.db.hasVault id = true → id ≠ vaultId → db'.tenant id = s.db.tenant id) ∧
      db'.users = s.db.users ∧ db'.sessions = s.db.sessions ∧
      (∀ owner, s.db.ownsVault owner vaultId = false →
        db'.retiredVaults.filter (ownedBy owner) = s.db.retiredVaults.filter (ownedBy owner) ∧
        db'.ownerStoredCiphertextSize owner = s.db.ownerStoredCiphertextSize owner) ∧
      ∀ revision ∈ answer.revision?, revision.vaultId = vaultId ∧
        ∀ owner, s.db.ownsVault owner vaultId = true → db'.ownerStoredCiphertextSize owner =
          s.db.ownerStoredCiphertextSize owner + revision.size := by
  have heffect := execute_ok hok
  have hc := s.constraints
  refine ⟨fun id hid hne => heffect.tenant hc hid fun hsame => ?_, (heffect.accounts hc).users,
    (heffect.accounts hc).sessions, fun owner hnot => ⟨heffect.markersOf hc hdisjoint hvault hnot,
      heffect.ownerStored hc hvault hnot⟩, fun revision hrevision => ?_⟩
  · exact hne (Option.some.inj (hsame.symm.trans hvault))
  · have hcharged := heffect.charged hc hrevision
    have hid : revision.vaultId = vaultId :=
      Option.some.inj ((hcharged 0).1.symm.trans hvault)
    refine ⟨hid, fun owner howns => ?_⟩
    rw [(hcharged owner).2, hid, howns, if_pos rfl]

def collaboratorTokenHash : String := Text.hexEncode (List.replicate 32 1)

/-- The personal server with a second user, who has a vault and is a member of the first. -/
def sharedServer : Database :=
  { personalServer with
    sqliteSequence := [⟨some "users", 2⟩, ⟨some "memberships", 1⟩]
    users := personalServer.users ++ [
      { id := 2, emailCanonical := "guest@example.test", email := "guest@example.test",
        name := "Guest", passwordHash := somePasswordHash, status := .active, createdAt := 0,
        updatedAt := 0, role := .user }]
    vaults := personalServer.vaults ++ [
      { id := "other", name := "Drafts", keyhash := some "k", salt := some "s", host := "h",
        region := "r", encryptionVersion := 3, size := 0, created := 0, password := none,
        version := 0, ownerUserId := 2 }]
    sessions := personalServer.sessions ++ [
      { tokenHash := collaboratorTokenHash, userId := 2, createdAt := 0, expiresAt := 1000,
        revokedAt := none }]
    memberships := [
      { id := 1, vaultId := "vault", userId := 2, invitedByUserId := 1, acceptedAt := 0,
        createdAt := 0, revokedAt := none }] }

theorem constraints_sharedServer : Constraints sharedServer := by
  constructor <;> decide +kernel

example : Database.verifyConnection onePhc sharedServer 500 = .ok () := by decide +kernel

def sharedStore : Store := ⟨sharedServer, constraints_sharedServer⟩

/-- A note of three bytes that the collaborator pushes is charged to the owner. -/
theorem writes_stay_in_tenant_of_collaborator :
    let push := Request.addFileRevision { notePush false 3 1 with userId := 2 }
      collaboratorTokenHash [1, 2, 3] 10 10
    let db' := (sharedStore.next push ⟨500, 500⟩).db
    db'.tenant "other" = sharedStore.db.tenant "other" ∧
      db'.ownerStoredCiphertextSize 2 = sharedStore.db.ownerStoredCiphertextSize 2 ∧
      db'.ownerStoredCiphertextSize 1 = sharedStore.db.ownerStoredCiphertextSize 1 + 3 := by
  intro push db'
  have hok : push.execute sharedStore.db ⟨500, 500⟩ = .ok (.stored
      { (notePush false 3 1).toRow none 500 with uid := 1, userId := 2 }.toRevision, db') := by
    decide +kernel
  have hdisjoint : ∀ r ∈ sharedStore.db.retiredVaults, sharedStore.db.hasVault r.id = false :=
    fun r hr => by cases hr
  obtain ⟨htenant, -, -, hothers, hcharged⟩ := writes_stay_in_tenant hdisjoint rfl hok
  have hguest := (hothers 2 (by decide +kernel)).2
  have howner := (hcharged _ rfl).2 1 (by decide +kernel)
  exact ⟨htenant "other" (by decide +kernel) (by decide), hguest, howner⟩

end Blackglass
