import Blackglass.Statement

/-!
# What the schema itself guarantees

SQLite checks the primary keys, the unique indexes and (with `foreign_keys=ON`) the
references of every row it stores.  `Constraints` collects these facts about a
database, and a lemma for each change of `Statement.lean` says that it keeps them.
They are the reason why "the row with this id" is well defined everywhere else.
-/

namespace Blackglass

open Rows

/-- The keys, unique indexes and references of the version 7 schema. -/
structure Constraints (db : Database) : Prop where
  userId : (db.users.map (·.id)).Nodup
  userEmail : (db.users.map (·.emailCanonical)).Nodup
  vaultId : (db.vaults.map (·.id)).Nodup
  revisionUid : (db.revisions.map (·.uid)).Nodup
  contentUid : (db.revisionContent.map (·.uid)).Nodup
  sessionToken : (db.sessions.map (·.tokenHash)).Nodup
  retiredId : (db.retiredVaults.map (·.id)).Nodup
  membershipId : (db.memberships.map (·.id)).Nodup
  /-- `memberships_active_vault_user`: one active row for a vault and a user. -/
  membershipActive :
    ((db.memberships.filter (·.active)).map fun m => (m.vaultId, m.userId)).Nodup
  vaultOwner : ∀ v ∈ db.vaults, db.hasUser v.ownerUserId = true
  revisionVault : ∀ r ∈ db.revisions, db.hasVault r.vaultId = true
  revisionUser : ∀ r ∈ db.revisions, db.hasUser r.userId = true
  contentRevision : ∀ c ∈ db.revisionContent, ∃ r ∈ db.revisions, r.uid = c.uid
  sessionUser : ∀ s ∈ db.sessions, db.hasUser s.userId = true
  retiredOwner : ∀ r ∈ db.retiredVaults, db.hasUser r.ownerUserId = true
  membershipVault : ∀ m ∈ db.memberships, db.hasVault m.vaultId = true
  membershipUser : ∀ m ∈ db.memberships, db.hasUser m.userId = true
  membershipInviter : ∀ m ∈ db.memberships, db.hasUser m.invitedByUserId = true

/-- A database that SQLite can hold. -/
structure Store where
  db : Database
  constraints : Constraints db

/-! ## Lookups -/

theorem hasVault_iff {db : Database} {id : String} :
    db.hasVault id = true ↔ ∃ v ∈ db.vaults, v.id = id := by
  simp [Database.hasVault]

theorem hasVault_eq_false_iff {db : Database} {id : String} :
    db.hasVault id = false ↔ ∀ v ∈ db.vaults, v.id ≠ id := by
  simp [Database.hasVault]

theorem hasUser_iff {db : Database} {id : Int} :
    db.hasUser id = true ↔ ∃ u ∈ db.users, u.id = id := by
  simp [Database.hasUser]

theorem ownsVault_iff {db : Database} {userId : Int} {id : String} :
    db.ownsVault userId id = true ↔ ∃ v ∈ db.vaults, v.id = id ∧ v.ownerUserId = userId := by
  simp [Database.ownsVault]

theorem mem_of_vault? {db : Database} {id : String} {v : VaultRow} (h : db.vault? id = some v) :
    v ∈ db.vaults ∧ v.id = id :=
  ⟨List.mem_of_find?_eq_some h, by simpa using List.find?_some h⟩

namespace Constraints

variable {db : Database}

/-- Two vaults with one id are the same row. -/
theorem eq_of_vaultId (h : Constraints db) {v w : VaultRow} (hv : v ∈ db.vaults)
    (hw : w ∈ db.vaults) (hid : v.id = w.id) : v = w :=
  List.inj_on_of_nodup_map h.vaultId hv hw hid

theorem eq_of_revisionUid (h : Constraints db) {r s : RevisionRow} (hr : r ∈ db.revisions)
    (hs : s ∈ db.revisions) (hid : r.uid = s.uid) : r = s :=
  List.inj_on_of_nodup_map h.revisionUid hr hs hid

theorem eq_of_membershipId (h : Constraints db) {m n : MembershipRow} (hm : m ∈ db.memberships)
    (hn : n ∈ db.memberships) (hid : m.id = n.id) : m = n :=
  List.inj_on_of_nodup_map h.membershipId hm hn hid

/-- Looking a vault up by its id finds it. -/
theorem vault?_eq (h : Constraints db) {v : VaultRow} (hv : v ∈ db.vaults) :
    db.vault? v.id = some v := find_key_of_mem h.vaultId hv

/-- Of a vault that exists, only its owner owns the id. -/
theorem owner_unique (h : Constraints db) {v : VaultRow} (hv : v ∈ db.vaults) {userId : Int} :
    db.ownsVault userId v.id = true ↔ v.ownerUserId = userId := by
  rw [ownsVault_iff]
  constructor
  · rintro ⟨w, hw, hid, hown⟩
    rwa [← h.eq_of_vaultId hw hv hid]
  · intro hown
    exact ⟨v, hv, rfl, hown⟩

/-! ## Changes that keep the constraints -/

theorem withVault (h : Constraints db) {row : VaultRow} (hid : db.hasVault row.id = false)
    (hown : db.hasUser row.ownerUserId = true) : Constraints (db.withVault row) :=
  have hold : ∀ id, db.hasVault id = true → (db.withVault row).hasVault id = true := by
    intro id hid
    obtain ⟨v, hv, rfl⟩ := hasVault_iff.mp hid
    exact hasVault_iff.mpr ⟨v, List.mem_append_left _ hv, rfl⟩
  { h with
    vaultId := by
      simp only [Database.withVault_vaults, List.map_append, List.map_cons, List.map_nil]
      refine h.vaultId.append (by simp) ?_
      intro id hin hrow
      obtain ⟨v, hv, rfl⟩ := List.mem_map.mp hin
      exact hasVault_eq_false_iff.mp hid v hv (by simpa using hrow)
    vaultOwner := by
      intro v hv
      rcases List.mem_append.mp hv with hv | hv
      · exact h.vaultOwner v hv
      · rw [List.mem_singleton.mp hv]
        exact hown
    revisionVault := fun r hr => hold _ (h.revisionVault r hr)
    membershipVault := fun m hm => hold _ (h.membershipVault m hm) }

/-- An update of vault rows that touches neither their ids nor their owners. -/
theorem mapVaults (h : Constraints db) {f : VaultRow → VaultRow} (hid : ∀ v, (f v).id = v.id)
    (hown : ∀ v, (f v).ownerUserId = v.ownerUserId) :
    Constraints (db.mapVaults f) :=
  have hold : ∀ id, db.hasVault id = true → (db.mapVaults f).hasVault id = true := by
    intro id hid'
    obtain ⟨v, hv, rfl⟩ := hasVault_iff.mp hid'
    exact hasVault_iff.mpr ⟨f v, List.mem_map_of_mem hv, hid v⟩
  { h with
    vaultId := by
      simp only [Database.mapVaults_vaults, List.map_map, Function.comp_def, hid]
      exact h.vaultId
    vaultOwner := by
      intro v hv
      obtain ⟨w, hw, rfl⟩ := List.mem_map.mp hv
      rw [hown]
      exact h.vaultOwner w hw
    revisionVault := fun r hr => hold _ (h.revisionVault r hr)
    membershipVault := fun m hm => hold _ (h.membershipVault m hm) }

theorem refreshVault (h : Constraints db) (id : String) (version : Int) :
    Constraints (db.refreshVault id version) :=
  h.mapVaults (fun v => by split <;> rfl) (fun v => by split <;> rfl)

theorem withRevision (h : Constraints db) {row : RevisionRow}
    (hvault : db.hasVault row.vaultId = true) (huser : db.hasUser row.userId = true) :
    Constraints (db.withRevision row) :=
  { h with
    revisionUid := by
      simp only [Database.withRevision_revisions, List.map_append, List.map_cons, List.map_nil]
      refine h.revisionUid.append (by simp) ?_
      intro uid hin hnew
      have hlt : uid < db.nextRevisionUid := lt_nextRowid hin
      have : uid = db.nextRevisionUid := by simpa using hnew
      omega
    revisionVault := by
      intro r hr
      rcases List.mem_append.mp hr with hr | hr
      · exact h.revisionVault r hr
      · rw [List.mem_singleton.mp hr]
        exact hvault
    revisionUser := by
      intro r hr
      rcases List.mem_append.mp hr with hr | hr
      · exact h.revisionUser r hr
      · rw [List.mem_singleton.mp hr]
        exact huser
    contentRevision := by
      intro c hc
      obtain ⟨r, hr, huid⟩ := h.contentRevision c hc
      exact ⟨r, List.mem_append_left _ hr, huid⟩ }

theorem withRevisionContent (h : Constraints db) {uid : Int} {content : Blob}
    (hfresh : ∀ c ∈ db.revisionContent, c.uid ≠ uid) (hrev : ∃ r ∈ db.revisions, r.uid = uid) :
    Constraints (db.withRevisionContent uid content) :=
  { h with
    contentUid := by
      simp only [Database.withRevisionContent_revisionContent, List.map_append, List.map_cons,
        List.map_nil]
      refine h.contentUid.append (by simp) ?_
      intro u hin hnew
      obtain ⟨c, hc, rfl⟩ := List.mem_map.mp hin
      exact hfresh c hc (by simpa using hnew)
    contentRevision := by
      intro c hc
      rcases List.mem_append.mp hc with hc | hc
      · exact h.contentRevision c hc
      · rw [List.mem_singleton.mp hc]
        exact hrev }

theorem withMembership (h : Constraints db) {row : MembershipRow}
    (hvault : db.hasVault row.vaultId = true) (huser : db.hasUser row.userId = true)
    (hinviter : db.hasUser row.invitedByUserId = true)
    (hactive : row.active = true → ∀ m ∈ db.memberships, m.active = true →
      m.vaultId = row.vaultId → m.userId ≠ row.userId) :
    Constraints (db.withMembership row) :=
  have hcases : ∀ {P : MembershipRow → Prop}, (∀ m ∈ db.memberships, P m) →
      P { row with id := db.nextMembershipId } →
        ∀ m ∈ (db.withMembership row).memberships, P m := by
    intro P hold hnew m hm
    rcases List.mem_append.mp hm with hm | hm
    · exact hold m hm
    · rw [List.mem_singleton.mp hm]
      exact hnew
  { h with
    membershipId := by
      simp only [Database.withMembership_memberships, List.map_append, List.map_cons, List.map_nil]
      refine h.membershipId.append (by simp) ?_
      intro id hin hnew
      have hlt : id < db.nextMembershipId := lt_nextRowid hin
      have : id = db.nextMembershipId := by simpa using hnew
      omega
    membershipActive := by
      simp only [Database.withMembership_memberships, List.filter_append, List.map_append]
      by_cases hrow : row.active = true
      · have hone : [({ row with id := db.nextMembershipId } : MembershipRow)].filter (·.active) =
            [{ row with id := db.nextMembershipId }] := by
          simpa [MembershipRow.active] using hrow
        rw [hone]
        refine h.membershipActive.append (by simp) ?_
        intro pair hin hnew
        obtain ⟨m, hm, rfl⟩ := List.mem_map.mp hin
        obtain ⟨hv, hu⟩ := Prod.mk.inj (List.mem_singleton.mp hnew)
        obtain ⟨hm, hmactive⟩ := List.mem_filter.mp hm
        exact hactive hrow m hm hmactive hv hu
      · have hnone : [({ row with id := db.nextMembershipId } : MembershipRow)].filter (·.active) =
            [] := by
          simpa [MembershipRow.active] using hrow
        rw [hnone]
        simpa using h.membershipActive
    membershipVault := hcases h.membershipVault hvault
    membershipUser := hcases h.membershipUser huser
    membershipInviter := hcases h.membershipInviter hinviter }

theorem filterMemberships (h : Constraints db) (p : MembershipRow → Bool) :
    Constraints (db.filterMemberships p) :=
  { h with
    membershipId := h.membershipId.sublist (List.filter_sublist.map _)
    membershipActive :=
      h.membershipActive.sublist ((List.filter_sublist.filter _).map _)
    membershipVault := fun m hm => h.membershipVault m (List.mem_of_mem_filter hm)
    membershipUser := fun m hm => h.membershipUser m (List.mem_of_mem_filter hm)
    membershipInviter := fun m hm => h.membershipInviter m (List.mem_of_mem_filter hm) }

theorem withRetiredVault (h : Constraints db) {row : RetiredVaultRow}
    (hown : db.hasUser row.ownerUserId = true) : Constraints (db.withRetiredVault row) :=
  { h with
    retiredId := by
      simp only [Database.withRetiredVault_retiredVaults, List.map_append, List.map_cons,
        List.map_nil]
      refine (h.retiredId.sublist (List.filter_sublist.map _)).append (by simp) ?_
      intro id hin hnew
      obtain ⟨r, hr, rfl⟩ := List.mem_map.mp hin
      have := (List.mem_filter.mp hr).2
      simp_all
    retiredOwner := by
      intro r hr
      rcases List.mem_append.mp hr with hr | hr
      · exact h.retiredOwner r (List.mem_of_mem_filter hr)
      · rw [List.mem_singleton.mp hr]
        exact hown }

theorem filterRetiredVaults (h : Constraints db) (p : RetiredVaultRow → Bool) :
    Constraints { db with retiredVaults := db.retiredVaults.filter p } :=
  { h with
    retiredId := h.retiredId.sublist (List.filter_sublist.map _)
    retiredOwner := fun r hr => h.retiredOwner r (List.mem_of_mem_filter hr) }

theorem withoutRevisions (h : Constraints db) (p : RevisionRow → Bool) :
    Constraints (db.withoutRevisions p) :=
  { h with
    revisionUid := h.revisionUid.sublist (List.filter_sublist.map _)
    contentUid := h.contentUid.sublist (List.filter_sublist.map _)
    revisionVault := fun r hr => h.revisionVault r (List.mem_of_mem_filter hr)
    revisionUser := fun r hr => h.revisionUser r (List.mem_of_mem_filter hr)
    contentRevision := by
      intro c hc
      obtain ⟨hc, hgone⟩ := List.mem_filter.mp hc
      obtain ⟨r, hr, huid⟩ := h.contentRevision c hc
      refine ⟨r, List.mem_filter.mpr ⟨hr, ?_⟩, huid⟩
      cases hp : p r with
      | false => rfl
      | true => simp_all }

theorem withoutVaults (h : Constraints db) (p : VaultRow → Bool) :
    Constraints (db.withoutVaults p) :=
  have hrest := h.withoutRevisions fun r => db.vaults.any fun v => p v && v.id = r.vaultId
  have hkept : ∀ id, db.hasVault id = true → (db.vaults.any fun v => p v && v.id = id) = false →
      (db.withoutVaults p).hasVault id = true := by
    intro id hid hgone
    obtain ⟨v, hv, rfl⟩ := hasVault_iff.mp hid
    refine hasVault_iff.mpr ⟨v, List.mem_filter.mpr ⟨hv, ?_⟩, rfl⟩
    cases hp : p v with
    | false => rfl
    | true =>
      rw [List.any_eq_false] at hgone
      exact absurd (hgone v hv) (by simp [hp])
  { hrest with
    vaultId := h.vaultId.sublist (List.filter_sublist.map _)
    vaultOwner := fun v hv => h.vaultOwner v (List.mem_of_mem_filter hv)
    revisionVault := by
      intro r hr
      obtain ⟨hr, hgone⟩ := List.mem_filter.mp hr
      exact hkept _ (h.revisionVault r hr) (by simpa using hgone)
    membershipId := h.membershipId.sublist (List.filter_sublist.map _)
    membershipActive := h.membershipActive.sublist ((List.filter_sublist.filter _).map _)
    membershipVault := by
      intro m hm
      obtain ⟨hm, hgone⟩ := List.mem_filter.mp hm
      exact hkept _ (h.membershipVault m hm) (by simpa using hgone)
    membershipUser := fun m hm => h.membershipUser m (List.mem_of_mem_filter hm)
    membershipInviter := fun m hm => h.membershipInviter m (List.mem_of_mem_filter hm) }

end Constraints

end Blackglass
