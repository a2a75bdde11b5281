import Blackglass.Accounts
import Blackglass.SchemaMigration

/-!
# Administrators and registration

Of the user table only ids, roles and statuses decide who administers the server.  `RosterChange`
says what an operation can do to them: disabling and demoting are guarded by different checks,
and each of them leaves an active administrator.  A run starts with the file that `initialize`
makes, whose first user is its only one.
-/

namespace Blackglass

open Rows Outcome Transition

/-! ## A new file -/

/-- A file that SQLite has just created. -/
def Database.newFile : Database :=
  { tables := [], schemaMigrations := [], sqliteSequence := [], users := [], vaults := [],
    revisions := [], revisionContent := [], sessions := [], retiredVaults := [], memberships := [],
    serverSettings := [], runtimeStorageUsage := none }

/-- `initialize`, of a path that does not exist. -/
def Database.initializeFile (phc : PhcParser) (user : InitialUser) (clock : Int → StepReadings)
    (verifiedAt : Int) : Except DbError Database := do
  let db ← Database.newFile.migrate phc (some user) clock
  verifyConnection phc db verifiedAt
  return db.initializeRuntimeStorageUsage

/-- The first user administers the server, and nobody can register. -/
theorem initializeFile_ok {phc : PhcParser} {user : InitialUser} {clock : Int → StepReadings}
    {verifiedAt : Int} {db : Database}
    (h : Database.initializeFile phc user clock verifiedAt = .ok db) :
    db.users = [{ user.toRow (clock 5).appliedAt with role := .admin }] ∧
      db.serverSettings = [⟨1, false, (clock 7).epochAt, 1⟩] := by
  simp only [Database.initializeFile, Database.migrate, bind_eq_ok, exists_unit, pure_eq_ok] at h
  obtain ⟨migrated, ⟨-, -, hfold⟩, -, rfl⟩ := h
  have hversions : Database.supportedMigrations.drop
      (if .schemaMigrations ∈ Database.newFile.tables then Database.newFile.migrationVersions
        else []).length = 1 :: (List.range 6).map fun i : Nat => (1 : Int) + i + 1 := by decide
  rw [hversions, List.foldlM_cons, bind_eq_ok] at hfold
  obtain ⟨first, hfirst, hrest⟩ := hfold
  have hone : Database.newFile.migrateTo phc (some user) 1 (clock 1) =
    (Database.newFile.migration1 (clock 1).epochAt).applyMigration phc 1 (clock 1) := rfl
  rw [hone, applyMigration_ok] at hfirst
  obtain ⟨rfl, -⟩ := (foldlM_migrateTo le_rfl (fun _ => rfl) (by decide)).mp hrest
  exact ⟨rfl, rfl⟩

/-! ## The roster -/

/-- What of a user decides who administers the server. -/
structure Member where
  id : Int
  role : UserRole
  status : UserStatus
deriving DecidableEq

/-- The members whom `set_self_registration_enabled` obeys. -/
def Member.Administers (m : Member) : Prop := m.role = .admin ∧ m.status = .active

instance (m : Member) : Decidable m.Administers := inferInstanceAs (Decidable (_ ∧ _))

def UserRow.member (u : UserRow) : Member := ⟨u.id, u.role, u.status⟩

def Database.roster (db : Database) : List Member := db.users.map UserRow.member

/-- `UPDATE` of one member. -/
def updateMember (roster : List Member) (id : Int) (f : Member → Member) : List Member :=
  roster.map fun m => if m.id = id then f m else m

namespace AccountOperation

/-- The role that an operation gives, and whom. -/
def grant? : AccountOperation → Option (Int × UserRole)
  | setUserRole userId role => (UserRole.parse role).map fun role => (userId, role)
  | _ => none

/-- What an operation stores as the registration flag. -/
def enables? : AccountOperation → Option Bool
  | setSelfRegistrationEnabled _ enabled => some enabled
  | _ => none

end AccountOperation

/-- What a committed operation has done to the roster.  Of the member to disable only the role is
looked at, of the one to demote the status too. -/
inductive RosterChange (roster : List Member) : AccountOperation → List Member → Prop where
  | same {op : AccountOperation} : op.grant? = none → RosterChange roster op roster
  | enrolled {op : AccountOperation} {id : Int} :
      op.grant? = none → (∀ m ∈ roster, m.id ≠ id) →
      RosterChange roster op (roster ++ [⟨id, .user, .active⟩])
  | enabled {op : AccountOperation} (id : Int) :
      op.grant? = none →
      RosterChange roster op (updateMember roster id fun m => { m with status := .active })
  | disabled {op : AccountOperation} {m : Member} :
      op.grant? = none → m ∈ roster →
      (m.role = .admin → 2 ≤ (roster.filter fun m => m.Administers).length) →
      RosterChange roster op (updateMember roster m.id fun m => { m with status := .disabled })
  | granted {op : AccountOperation} {m : Member} {role : UserRole} :
      op.grant? = some (m.id, role) → m ∈ roster →
      (m.Administers → role = .user → 2 ≤ (roster.filter fun m => m.Administers).length) →
      RosterChange roster op (updateMember roster m.id fun m => { m with role := role })

section Inversion

variable {phc : PhcParser} {db db' : Database} {now : Int}

theorem activeAdmins_eq (db : Database) :
    db.activeAdmins = (db.roster.filter fun m => m.Administers).length := by
  have hcomp : ((fun m : Member => decide m.Administers) ∘ UserRow.member) =
      fun u : UserRow => u.role = .admin && u.status = .active := by
    funext u
    exact Bool.decide_and _ _
  rw [Database.roster, List.filter_map, List.length_map, hcomp]
  rfl

/-- An update of a row that is one of its member. -/
theorem roster_updateUser {userId : Int} {f : UserRow → UserRow} {g : Member → Member}
    (hfg : ∀ u, (f u).member = g u.member) :
    (db.updateUser userId f).roster = updateMember db.roster userId g := by
  simp only [Database.roster, Database.updateUser, Database.mapUsers_users, updateMember,
    List.map_map]
  refine List.map_congr_left fun u _ => ?_
  simp only [Function.comp_apply]
  rw [apply_ite UserRow.member, hfg]
  rfl

theorem roster_revokeSessionsOf (userId : Int) :
    (db.revokeSessionsOf userId now).roster = db.roster := rfl

theorem member_of_user? {id : Int} {u : UserRow} (h : db.user? id = some u) :
    u.member ∈ db.roster ∧ u.member.id = id :=
  ⟨List.mem_map_of_mem (mem_of_user? h).1, (mem_of_user? h).2⟩

theorem rosterChange_of_users {op : AccountOperation} (hop : op.grant? = none)
    (h : db'.users = db.users) : RosterChange db.roster op db'.roster := by
  have hroster : db'.roster = db.roster := congrArg (List.map UserRow.member) h
  rw [hroster]
  exact .same hop

/-- What is no part of a member can be written freely. -/
theorem rosterChange_updateUser {op : AccountOperation} (hop : op.grant? = none) {userId : Int}
    {f : UserRow → UserRow} (hf : ∀ u, (f u).member = u.member) :
    RosterChange db.roster op (db.updateUser userId f).roster := by
  rw [roster_updateUser (g := id) hf]
  have hsame : updateMember db.roster userId id = db.roster := by simp [updateMember]
  rw [hsame]
  exact .same hop

theorem rosterChange_withUser {op : AccountOperation} (hop : op.grant? = none)
    (email : CanonicalEmail) (name passwordHash : String) :
    RosterChange db.roster op (db.withUser (email.toRow name passwordHash now)).roster := by
  have hroster : (db.withUser (email.toRow name passwordHash now)).roster =
      db.roster ++ [⟨db.nextUserId, .user, .active⟩] := List.map_append
  rw [hroster]
  refine .enrolled hop fun m hm hid => ?_
  obtain ⟨u, hu, rfl⟩ := List.mem_map.mp hm
  have hlt : u.id < db.nextUserId := lt_nextRowid (List.mem_map_of_mem hu)
  exact hlt.ne hid

/-- An operation without a target adds at most a member. -/
theorem AccountEffect.rosterChange {op : AccountOperation} (h : AccountEffect phc db now op db')
    (hop : op.grant? = none) (htarget : op.target? = none) :
    RosterChange db.roster op db'.roster := by
  cases h with
  | same => exact .same hop
  | issue hissue => exact rosterChange_of_users hop (issueSessionForUser_ok hissue).2
  | renewContext _ => exact .same hop
  | renewForVault _ => exact .same hop
  | revoke _ _ => exact .same hop
  | created _ _ _ _ _ _ => exact rosterChange_withUser hop _ _ _
  | changed hchanged _ _ => exact absurd (htarget.symm.trans hchanged) nofun
  | toggled _ _ => exact .same hop

theorem rosterChange_setUserStatus {userId : Int} {status : String}
    (h : db.setUserStatus userId status now = .ok db') :
    RosterChange db.roster (.setUserStatus userId status) db'.roster := by
  simp only [Database.setUserStatus, bind_eq_ok, orReject_eq_ok] at h
  obtain ⟨parsed, -, h⟩ := h
  cases parsed with
  | active =>
    simp only [bind_eq_ok, rejectIf_eq_ok, exists_unit, pure_eq_ok] at h
    obtain ⟨-, rfl⟩ := h
    rw [roster_updateUser (g := fun m => { m with status := .active }) fun _ => rfl]
    exact .enabled userId rfl
  | disabled =>
    simp only [bind_eq_ok, orReject_eq_ok, rejectIf_eq_ok, exists_unit, pure_eq_ok] at h
    obtain ⟨u, hu, hguard, rfl⟩ := h
    obtain ⟨hmem, hid⟩ := member_of_user? hu
    rw [roster_revokeSessionsOf,
      roster_updateUser (g := fun m => { m with status := .disabled }) fun _ => rfl, ← hid]
    refine .disabled rfl hmem fun hadmin => ?_
    rw [← activeAdmins_eq]
    exact not_le.mp fun hle => hguard ⟨hadmin, hle⟩

theorem rosterChange_setUserRole {userId : Int} {role : String}
    (h : db.setUserRole userId role now = .ok db') :
    RosterChange db.roster (.setUserRole userId role) db'.roster := by
  simp only [Database.setUserRole, bind_eq_ok, orReject_eq_ok, rejectIf_eq_ok, exists_unit,
    pure_eq_ok] at h
  obtain ⟨parsed, hparsed, u, hu, hguard, rfl⟩ := h
  obtain ⟨hmem, hid⟩ := member_of_user? hu
  rw [roster_revokeSessionsOf,
    roster_updateUser (g := fun m => { m with role := parsed }) fun _ => rfl, ← hid]
  refine .granted ?_ hmem fun hadmin huser => ?_
  · rw [AccountOperation.grant?, hparsed, hid]
    rfl
  · rw [← activeAdmins_eq]
    exact not_le.mp fun hle => hguard ⟨hadmin.1, huser, hadmin.2, hle⟩

theorem AccountOperation.rosterChange {op : AccountOperation}
    (h : op.execute phc db now = .ok db') : RosterChange db.roster op db'.roster := by
  cases op with
  | setUserPassword userId passwordHash =>
    simp only [AccountOperation.execute, Database.setUserPassword, bind_eq_ok, exists_unit,
      updateUserAndRevoke_ok] at h
    obtain ⟨-, -, rfl⟩ := h
    exact rosterChange_updateUser rfl fun _ => rfl
  | setUserEmail userId value =>
    simp only [AccountOperation.execute, Database.setUserEmail, bind_eq_ok, exists_unit,
      updateUserAndRevoke_ok] at h
    obtain ⟨_, -, -, -, rfl⟩ := h
    exact rosterChange_updateUser rfl fun _ => rfl
  | setUserName userId value =>
    simp only [AccountOperation.execute, Database.setUserName, bind_eq_ok, exists_unit,
      pure_eq_ok] at h
    obtain ⟨_, -, -, rfl⟩ := h
    exact rosterChange_updateUser rfl fun _ => rfl
  | setUserStatus userId status => exact rosterChange_setUserStatus h
  | setUserRole userId role => exact rosterChange_setUserRole h
  | _ => exact (AccountOperation.effect_of_execute h).rosterChange rfl rfl

end Inversion

/-! ## An active administrator remains -/

/-- The roles that `set_user_role` has given last, after one more operation. -/
def AccountOperation.grants (op : AccountOperation) (granted : Int → Option UserRole) :
    Int → Option UserRole :=
  match op.grant? with
  | some (id, role) => Function.update granted id (some role)
  | none => granted

/-- What holds of the roster where `set_user_role` has given the roles `granted` last. -/
structure Staffed (first : Int) (granted : Int → Option UserRole) (roster : List Member) :
    Prop where
  ids : (roster.map (·.id)).Nodup
  enrolled : ∀ id, id = first ∨ granted id ≠ none → ∃ m ∈ roster, m.id = id
  administered : ∃ m ∈ roster, m.Administers
  roles : ∀ m ∈ roster, m.role = (granted m.id).getD (if m.id = first then .admin else .user)

section Preservation

variable {roster roster' : List Member} {op : AccountOperation} {first : Int}
  {granted : Int → Option UserRole} {f : Member → Member}

theorem AccountOperation.grants_of_none (h : op.grant? = none) : op.grants granted = granted := by
  rw [AccountOperation.grants, h]

theorem AccountOperation.grants_of_some {id : Int} {role : UserRole}
    (h : op.grant? = some (id, role)) : op.grants granted = Function.update granted id role := by
  rw [AccountOperation.grants, h]

theorem map_id_updateMember (hf : ∀ m, (f m).id = m.id) (id : Int) :
    (updateMember roster id f).map (·.id) = roster.map (·.id) := by
  rw [updateMember, List.map_map]
  refine List.map_congr_left fun m _ => ?_
  simp only [Function.comp_apply]
  split
  · exact hf m
  · rfl

/-- A member stays, and is changed if it is the one to change. -/
theorem mem_updateMember {id : Int} {m : Member} (hm : m ∈ roster) :
    (if m.id = id then f m else m) ∈ updateMember roster id f :=
  List.mem_map_of_mem hm

theorem exists_id_updateMember (hf : ∀ m, (f m).id = m.id) {id k : Int}
    (h : ∃ m ∈ roster, m.id = k) : ∃ m ∈ updateMember roster id f, m.id = k := by
  have hkept : k ∈ (updateMember roster id f).map (·.id) := by
    rw [map_id_updateMember hf]
    exact List.mem_map.mpr h
  exact List.mem_map.mp hkept

/-- Where a member may go, it does not administer or another does. -/
theorem exists_other_administrator (hids : (roster.map (·.id)).Nodup)
    (hadmin : ∃ m ∈ roster, m.Administers) {m : Member} (hm : m ∈ roster)
    (hguard : m.Administers → 2 ≤ (roster.filter fun m => m.Administers).length) :
    ∃ m' ∈ roster, m'.Administers ∧ m'.id ≠ m.id := by
  by_cases hm' : m.Administers
  · have hfilter : ((roster.filter fun m => m.Administers).map (·.id)).Nodup :=
      hids.sublist (List.filter_sublist.map _)
    by_contra hnone
    have hall : ∀ m' ∈ roster.filter fun m => m.Administers, decide (m'.id = m.id) = true := by
      intro m' hm''
      obtain ⟨hmem, hadmin'⟩ := List.mem_filter.mp hm''
      refine decide_eq_true (not_not.mp fun hne => hnone ?_)
      exact ⟨m', hmem, of_decide_eq_true hadmin', hne⟩
    have hone := countP_key_le_one hfilter m.id
    rw [List.countP_eq_length.mpr hall] at hone
    exact absurd (hguard hm') (not_le.mpr (Nat.lt_succ_of_le hone))
  · obtain ⟨m', hmem, hadmin'⟩ := hadmin
    refine ⟨m', hmem, hadmin', fun heq => hm' ?_⟩
    rw [← List.inj_on_of_nodup_map hids hmem hm heq]
    exact hadmin'

/-- An administrator that an update leaves alone. -/
theorem administered_of_other {m : Member}
    (h : ∃ m' ∈ roster, m'.Administers ∧ m'.id ≠ m.id) :
    ∃ m' ∈ updateMember roster m.id f, m'.Administers := by
  obtain ⟨m', hmem, hadmin, hne⟩ := h
  have hkept : (if m'.id = m.id then f m' else m') ∈ updateMember roster m.id f :=
    mem_updateMember hmem
  rw [if_neg hne] at hkept
  exact ⟨m', hkept, hadmin⟩

/-- An update after which whoever administered still does. -/
theorem administered_updateMember {id : Int} (hf : ∀ m, m.Administers → (f m).Administers)
    (h : ∃ m ∈ roster, m.Administers) : ∃ m ∈ updateMember roster id f, m.Administers := by
  obtain ⟨m, hmem, hadmin⟩ := h
  refine ⟨_, mem_updateMember hmem, ?_⟩
  split
  · exact hf m hadmin
  · exact hadmin

namespace Staffed

/-- A change of statuses. -/
theorem updateStatus (h : Staffed first granted roster) {id : Int} {status : UserStatus}
    (hadmin : ∃ m ∈ updateMember roster id fun m => { m with status := status }, m.Administers) :
    Staffed first granted (updateMember roster id fun m => { m with status := status }) where
  ids := by
    rw [map_id_updateMember]
    · exact h.ids
    · exact fun _ => rfl
  enrolled k hk := by
    refine exists_id_updateMember ?_ (h.enrolled k hk)
    exact fun _ => rfl
  administered := hadmin
  roles := by
    intro m' hm'
    obtain ⟨m, hm, rfl⟩ := List.mem_map.mp hm'
    have hrole := h.roles m hm
    split
    · exact hrole
    · exact hrole

theorem enrol (h : Staffed first granted roster) {id : Int} (hid : ∀ m ∈ roster, m.id ≠ id) :
    Staffed first granted (roster ++ [⟨id, .user, .active⟩]) where
  ids := by
    rw [List.map_append]
    refine h.ids.append (by simp) ?_
    intro k hold hnew
    obtain ⟨m, hm, rfl⟩ := List.mem_map.mp hold
    exact hid m hm (by simpa using hnew)
  enrolled k hk := by
    obtain ⟨m, hm, hmk⟩ := h.enrolled k hk
    exact ⟨m, List.mem_append_left _ hm, hmk⟩
  administered := by
    obtain ⟨m, hm, hadmin⟩ := h.administered
    exact ⟨m, List.mem_append_left _ hm, hadmin⟩
  roles := by
    intro m hm
    rcases List.mem_append.mp hm with hm | hm
    · exact h.roles m hm
    · have hnew : ¬ (id = first ∨ granted id ≠ none) := fun hk =>
        let ⟨m', hm', heq⟩ := h.enrolled id hk
        hid m' hm' heq
      obtain ⟨hfirst, hgranted⟩ := not_or.mp hnew
      obtain rfl := List.mem_singleton.mp hm
      simp only [not_not.mp hgranted, hfirst, if_false, Option.getD_none]

theorem grant (h : Staffed first granted roster) {m : Member} {role : UserRole} (hm : m ∈ roster)
    (hadmin : ∃ m' ∈ updateMember roster m.id fun m => { m with role := role }, m'.Administers) :
    Staffed first (Function.update granted m.id role)
      (updateMember roster m.id fun m => { m with role := role }) where
  ids := by
    rw [map_id_updateMember]
    · exact h.ids
    · exact fun _ => rfl
  enrolled k hk := by
    refine exists_id_updateMember ?_ ?_
    · exact fun _ => rfl
    · by_cases hkm : k = m.id
      · exact ⟨m, hm, hkm.symm⟩
      · rw [Function.update_of_ne hkm] at hk
        exact h.enrolled k hk
  administered := hadmin
  roles := by
    intro m'' hm''
    obtain ⟨m', hm', rfl⟩ := List.mem_map.mp hm''
    by_cases hid : m'.id = m.id
    · simp [hid]
    · rw [if_neg hid, Function.update_of_ne hid]
      exact h.roles m' hm'

/-- A committed operation keeps the roster staffed. -/
theorem step (h : Staffed first granted roster) (hchange : RosterChange roster op roster') :
    Staffed first (op.grants granted) roster' := by
  cases hchange with
  | same hop =>
    rw [AccountOperation.grants_of_none hop]
    exact h
  | enrolled hop hid =>
    rw [AccountOperation.grants_of_none hop]
    exact h.enrol hid
  | enabled id hop =>
    rw [AccountOperation.grants_of_none hop]
    exact h.updateStatus (administered_updateMember (fun _ hm => ⟨hm.1, rfl⟩) h.administered)
  | disabled hop hm hguard =>
    rw [AccountOperation.grants_of_none hop]
    exact h.updateStatus (administered_of_other
      (exists_other_administrator h.ids h.administered hm fun hadmin => hguard hadmin.1))
  | @granted m role hop hm hguard =>
    rw [AccountOperation.grants_of_some hop]
    refine h.grant hm ?_
    cases role with
    | admin => exact administered_updateMember (fun _ hm => ⟨rfl, hm.2⟩) h.administered
    | user =>
      exact administered_of_other (exists_other_administrator h.ids h.administered hm
        fun hadmin => hguard hadmin rfl)

end Staffed

end Preservation

/-! ## The registration flag -/

section Settings

variable {phc : PhcParser} {db db' : Database} {now : Int} {op : AccountOperation}

/-- What an operation on registration needs in order to have an effect. -/
def AccountOperation.Permitted (db : Database) : AccountOperation → Prop
  | setSelfRegistrationEnabled administratorId _ =>
    ∃ u ∈ db.users, u.id = administratorId ∧ u.status = .active ∧ u.role = .admin
  | createSelfRegisteredUser .. => db.selfRegistrationEnabled = .ok true
  | _ => True

/-- The row of `server_settings` with the flag `enabled`. -/
def Database.Registration (db : Database) (enabled : Bool) : Prop :=
  ∃ updatedAt updatedBy, db.serverSettings = [⟨1, enabled, updatedAt, updatedBy⟩]

theorem Database.Registration.selfRegistrationEnabled {enabled : Bool}
    (h : db.Registration enabled) : db.selfRegistrationEnabled = .ok enabled := by
  obtain ⟨updatedAt, updatedBy, hsettings⟩ := h
  simp [Database.selfRegistrationEnabled, hsettings, orReject, bind, Except.bind, pure, Except.pure]

/-- Only one operation writes the flag. -/
theorem AccountEffect.serverSettings (h : AccountEffect phc db now op db')
    (hop : op.enables? = none) : db'.serverSettings = db.serverSettings := by
  cases h with
  | same => rfl
  | issue hissue => rw [issueSessionForUser_frame hissue]
  | renewContext _ => rfl
  | renewForVault _ => rfl
  | revoke _ _ => rfl
  | created _ _ _ _ _ _ => rfl
  | changed _ _ _ => rw [changeUser_frame]
  | toggled _ _ => cases hop

theorem Database.Registration.step {enabled : Bool} (h : db.Registration enabled)
    (hok : op.execute phc db now = .ok db') : db'.Registration (op.enables?.getD enabled) := by
  obtain ⟨updatedAt, updatedBy, hsettings⟩ := h
  cases hop : op.enables? with
  | none =>
    refine ⟨updatedAt, updatedBy, ?_⟩
    rw [(AccountOperation.effect_of_execute hok).serverSettings hop]
    exact hsettings
  | some value =>
    cases op with
    | setSelfRegistrationEnabled administratorId value' =>
      cases hop
      simp only [AccountOperation.execute, Database.setSelfRegistrationEnabled, bind_eq_ok,
        exists_unit, pure_eq_ok] at hok
      obtain ⟨-, rfl⟩ := hok
      exact ⟨now, administratorId, by simp [hsettings]⟩
    | _ => cases hop

theorem permitted_of_changed (hok : op.execute phc db now = .ok db') (hne : db' ≠ db) :
    op.Permitted db := by
  cases op with
  | setSelfRegistrationEnabled administratorId enabled =>
    simp only [AccountOperation.execute, Database.setSelfRegistrationEnabled, bind_eq_ok,
      rejectIf_eq_ok, exists_unit, not_or, Bool.not_eq_false, List.any_eq_true, Bool.and_eq_true,
      decide_eq_true_eq] at hok
    obtain ⟨⟨⟨u, hu, ⟨hid, hactive⟩, hrole⟩, -⟩, -⟩ := hok
    exact ⟨u, hu, hid, hactive, hrole⟩
  | createSelfRegisteredUser email name passwordHash =>
    simp only [AccountOperation.execute, Database.createSelfRegisteredUser, bind_eq_ok,
      rejectIf_eq_ok, exists_unit, pure_eq_ok, Prod.exists] at hok
    obtain ⟨r, db₁, ⟨_, -, _, -, -, enabled, henabled, hok⟩, rfl⟩ := hok
    cases enabled with
    | true => exact henabled
    | false =>
      cases hok
      exact absurd rfl hne
  | _ => trivial

end Settings

/-! ## Runs -/

/-- A database, the roles that `set_user_role` has given last, and the flag that was stored
last. -/
structure Administration where
  db : Database
  granted : Int → Option UserRole
  enabled : Bool

namespace Administration

/-- Nobody was given a role, and nobody can register. -/
def initial (db : Database) : Administration := ⟨db, fun _ => none, false⟩

/-- A call commits, or fails and changes nothing. -/
inductive Step (phc : PhcParser) (s : Administration) :
    AccountOperation × Int → Administration → Prop where
  | commit {op : AccountOperation} {now : Int} {db' : Database} :
      op.execute phc s.db now = .ok db' →
      Step phc s (op, now) ⟨db', op.grants s.granted, op.enables?.getD s.enabled⟩
  | rollback {op : AccountOperation} {now : Int} {e : DbError} :
      op.execute phc s.db now = .error e → Step phc s (op, now) s

/-- The state after a call. -/
def next (phc : PhcParser) (s : Administration) (op : AccountOperation) (now : Int) :
    Administration :=
  match op.execute phc s.db now with
  | .ok db' => ⟨db', op.grants s.granted, op.enables?.getD s.enabled⟩
  | .error _ => s

theorem step_next (phc : PhcParser) (s : Administration) (op : AccountOperation) (now : Int) :
    s.Step phc (op, now) (s.next phc op now) := by
  unfold next
  split
  · exact .commit ‹_›
  · exact .rollback ‹_›

/-- What holds along a run, where `first` is the user of the new file. -/
structure Sound (first : Int) (s : Administration) : Prop where
  staffed : Staffed first s.granted s.db.roster
  registration : s.db.Registration s.enabled

variable {phc : PhcParser} {s s' : Administration} {first : Int}

theorem Sound.step (h : s.Sound first) {call : AccountOperation × Int}
    (hstep : s.Step phc call s') : s'.Sound first := by
  cases hstep with
  | commit hok =>
    exact ⟨h.staffed.step (AccountOperation.rosterChange hok), h.registration.step hok⟩
  | rollback _ => exact h

theorem sound_initial {user : InitialUser} {clock : Int → StepReadings} {verifiedAt : Int}
    {db : Database} (h : Database.initializeFile phc user clock verifiedAt = .ok db) :
    (initial db).Sound 1 := by
  obtain ⟨husers, hsettings⟩ := initializeFile_ok h
  have hroster : db.roster = [⟨1, .admin, .active⟩] := by
    rw [Database.roster, husers]
    rfl
  refine ⟨?_, ⟨_, _, hsettings⟩⟩
  rw [initial, hroster]
  refine ⟨by simp, ?_, ⟨_, List.mem_singleton_self _, rfl, rfl⟩, ?_⟩
  · rintro id (rfl | hid)
    · exact ⟨_, List.mem_singleton_self _, rfl⟩
    · exact absurd rfl hid
  · intro m hm
    obtain rfl := List.mem_singleton.mp hm
    rfl

end Administration

/-- From a new file on, whatever is called and whichever calls fail, an active administrator
remains, an administrator who was not given that role last is the first user, and registration
is switched by active administrators and adds users only while it is on. -/
theorem administrators_of_run {phc : PhcParser} {user : InitialUser} {clock : Int → StepReadings}
    {verifiedAt : Int} {db : Database} {calls : List (AccountOperation × Int)}
    {s : Administration}
    (hinit : Database.initializeFile phc user clock verifiedAt = .ok db)
    (hrun : Run (Administration.Step phc) (.initial db) calls s) :
    (∃ u ∈ s.db.users, u.role = .admin ∧ u.status = .active) ∧
      (∃ first, db.users = [first] ∧ ∀ u ∈ s.db.users, u.role = .admin →
        s.granted u.id = some .admin ∨ s.granted u.id = none ∧ u.id = first.id) ∧
      s.db.selfRegistrationEnabled = .ok s.enabled ∧
      ∀ op now s', s.Step phc (op, now) s' → s'.db ≠ s.db → op.Permitted s.db := by
  have hsound : s.Sound 1 := hrun.invariant (fun h => h.step) (Administration.sound_initial hinit)
  refine ⟨?_, ⟨_, (initializeFile_ok hinit).1, ?_⟩, hsound.registration.selfRegistrationEnabled, ?_⟩
  · obtain ⟨m, hm, hadmin⟩ := hsound.staffed.administered
    obtain ⟨u, hu, rfl⟩ := List.mem_map.mp hm
    exact ⟨u, hu, hadmin⟩
  · intro u hu hadmin
    have hrole := hadmin.symm.trans (hsound.staffed.roles u.member (List.mem_map_of_mem hu))
    cases hgranted : s.granted u.id with
    | some role =>
      have hsome : s.granted u.member.id = some role := hgranted
      rw [hsome, Option.getD_some] at hrole
      exact .inl (congrArg some hrole.symm)
    | none =>
      have hnone : s.granted u.member.id = none := hgranted
      rw [hnone, Option.getD_none] at hrole
      refine .inr ⟨rfl, ?_⟩
      by_contra hne
      have hfirst : u.member.id ≠ 1 := hne
      rw [if_neg hfirst] at hrole
      cases hrole
  · intro op now s' hstep hne
    cases hstep with
    | commit hok => exact permitted_of_changed hok hne
    | rollback _ => exact absurd rfl hne

/-- The file that the first owner makes at time 0. -/
def ownedFile : Database :=
  ((Database.initializeFile onePhc firstOwner (fun _ => ⟨0, 0, 0⟩) 0).toOption).getD .newFile

/-- A second user is made an administrator and the first one disabled; then the second one can
not be. -/
theorem administrators_of_run_disabled :
    let s := ((((Administration.initial ownedFile).next onePhc
      (.createUser "guest@example.test" "Guest" somePasswordHash) 1).next onePhc
      (.setUserRole 2 "admin") 2).next onePhc
      (.setUserStatus 1 "disabled") 3).next onePhc (.setUserStatus 2 "disabled") 4
    s.db.roster = [⟨1, .admin, .disabled⟩, ⟨2, .admin, .active⟩] ∧
      ∃ u ∈ s.db.users, u.role = .admin ∧ u.status = .active := by
  intro s
  have hinit : Database.initializeFile onePhc firstOwner (fun _ => ⟨0, 0, 0⟩) 0 =
    .ok ownedFile := by decide +kernel
  have hrun : Run (Administration.Step onePhc) (.initial ownedFile)
      [(.createUser "guest@example.test" "Guest" somePasswordHash, 1), (.setUserRole 2 "admin", 2),
        (.setUserStatus 1 "disabled", 3), (.setUserStatus 2 "disabled", 4)] s :=
    .cons (Administration.step_next ..) (.cons (Administration.step_next ..)
      (.cons (Administration.step_next ..) (.cons (Administration.step_next ..) (.nil _))))
  exact ⟨by decide +kernel, (administrators_of_run hinit hrun).1⟩

end Blackglass
