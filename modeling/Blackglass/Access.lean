import Blackglass.Handlers
import Blackglass.Verify

/-!
# One access relation, five queries

The server asks whether a token may use a vault in five places, each with a query of its
own: a three-way join (`valid_session_for_vault`), a correlated `EXISTS` evaluated before
and after an update (`renew_session_for_vault`), a join followed by a scalar subquery
(`auth_context_hash` and `find_authorized_vault`), the same two inside a transaction
(`authorize_mutation`), and two listings with limits.  `HasAccess` is what they all mean.
-/

namespace Blackglass

open Outcome Rows Text

/-- `vault_row`: the columns of a vault that answers carry. -/
def VaultRow.toVault (v : VaultRow) : Vault :=
  { id := v.id, name := v.name, keyhash := v.keyhash, salt := v.salt, host := v.host,
    region := v.region, encryptionVersion := v.encryptionVersion, size := v.size,
    created := v.created, password := v.password }

/-- `model.rs`, `SharedVault`. -/
structure SharedVault where
  vault : Vault
  shareUid : Int
  ownerUserId : Int
deriving DecidableEq

/-- `ORDER BY created ASC,id ASC`. -/
def VaultRow.createdBefore (v w : VaultRow) : Prop :=
  v.created < w.created ∨ v.created = w.created ∧ v.id ≤ w.id

instance : DecidableRel VaultRow.createdBefore := fun v w => by
  unfold VaultRow.createdBefore
  infer_instance

/-- `ORDER BY m.created_at,m.id`. -/
def MembershipRow.createdBefore (m n : MembershipRow) : Prop :=
  m.createdAt < n.createdAt ∨ m.createdAt = n.createdAt ∧ m.id ≤ n.id

instance : DecidableRel MembershipRow.createdBefore := fun m n => by
  unfold MembershipRow.createdBefore
  infer_instance

namespace Database

def listVaultsForUser (db : Database) (userId : Int) : List Vault :=
  (((db.vaults.filter fun v => v.ownerUserId = userId).insertionSort
    VaultRow.createdBefore).take maxVaults.toNat).map (·.toVault)

/-- `memberships m JOIN vaults v ON v.id=m.vault_id JOIN users u ON u.id=m.user_id AND
u.status='active'`: at most one vault and one user have the id. -/
def listSharedVaultsForUser (db : Database) (userId : Int) : List SharedVault :=
  let rows := (db.memberships.filter fun m =>
    m.userId = userId && m.active && db.activeUser m.userId).insertionSort
      MembershipRow.createdBefore
  (rows.filterMap fun m => (db.vault? m.vaultId).map fun v =>
    { vault := v.toVault, shareUid := m.id, ownerUserId := v.ownerUserId }).take
      maxMemberships.toNat

end Database

/-! ## The relation -/

/-- The user owns the vault or is an active member of it. -/
def Related (db : Database) (userId : Int) (vaultId : String) : Prop :=
  ∃ v ∈ db.vaults, v.id = vaultId ∧ db.ownsOrJoined v userId = true

/-- A live session of the token, of an active user who is related to the vault. -/
def HasAccess (db : Database) (tokenHash vaultId : String) (now : Int) : Prop :=
  ∃ s ∈ db.sessions, s.tokenHash = tokenHash ∧ s.live now = true ∧
    db.activeUser s.userId = true ∧ Related db s.userId vaultId

section Relation

variable {db : Database} {userId now : Int} {vaultId tokenHash : String}

theorem ownsOrJoined_iff {v : VaultRow} :
    db.ownsOrJoined v userId = true ↔ v.ownerUserId = userId ∨
      ∃ m ∈ db.memberships, m.vaultId = v.id ∧ m.userId = userId ∧ m.active = true := by
  simp [Database.ownsOrJoined, and_assoc]

theorem activeMembership_isSome :
    (db.activeMembership vaultId userId).isSome = true ↔
      ∃ m ∈ db.memberships, m.vaultId = vaultId ∧ m.userId = userId ∧ m.active = true := by
  simp [Database.activeMembership, List.find?_isSome, and_assoc]

/-- The scalar subquery finds a membership just if one exists. -/
theorem vaultAccess_isSome_iff (hc : Constraints db) :
    (db.vaultAccess userId vaultId).isSome = true ↔ Related db userId vaultId := by
  unfold Database.vaultAccess
  constructor
  · intro h
    cases hv : db.vault? vaultId with
    | none => simp [hv] at h
    | some v =>
      obtain ⟨hmem, hid⟩ := mem_of_vault? hv
      refine ⟨v, hmem, hid, ownsOrJoined_iff.mpr ?_⟩
      by_cases hown : v.ownerUserId = userId
      · exact .inl hown
      · simp only [hv, hown, if_false, Option.isSome_map] at h
        exact .inr (activeMembership_isSome.mp h)
  · rintro ⟨v, hmem, rfl, hrelated⟩
    rw [hc.vault?_eq hmem]
    by_cases hown : v.ownerUserId = userId
    · simp [hown]
    · simp only [hown, if_false, Option.isSome_map]
      exact activeMembership_isSome.mpr ((ownsOrJoined_iff.mp hrelated).resolve_left hown)

theorem findAuthorizedVault_isSome_iff (hc : Constraints db) :
    (db.findAuthorizedVault userId vaultId).isSome = true ↔ Related db userId vaultId := by
  rw [← vaultAccess_isSome_iff hc]
  cases haccess : db.vaultAccess userId vaultId with
  | none => simp [Database.findAuthorizedVault, haccess]
  | some access =>
    have hsome : (db.vaultAccess userId vaultId).isSome = true := by rw [haccess]; rfl
    obtain ⟨v, hv, rfl, -⟩ := (vaultAccess_isSome_iff hc).mp hsome
    simp [Database.findAuthorizedVault, haccess, hc.vault?_eq hv]

/-! ## Each query is the relation -/

/-- What a verified database says about the keys that the queries guard against.  SQLite's
`length` stops at a NUL, so of a longer token hash the verifier has seen only a part. -/
structure KeysShaped (db : Database) : Prop where
  token : ∀ s ∈ db.sessions, s.tokenHash.length = 64 → isTokenHash s.tokenHash = true
  vault : ∀ v ∈ db.vaults, v.id.isEmpty = false

theorem vaultAuthorization_iff {s : SessionRow} :
    db.vaultAuthorization vaultId s = true ↔
      db.activeUser s.userId = true ∧ Related db s.userId vaultId := by
  simp only [Database.vaultAuthorization, Related, activeUser_iff, List.any_eq_true,
    Bool.and_eq_true, decide_eq_true_eq]
  constructor
  · rintro ⟨u, hu, v, hv, ⟨⟨hid, huid⟩, hactive⟩, hrelated⟩
    exact ⟨⟨u, hu, huid, hactive⟩, v, hv, hid, hrelated⟩
  · rintro ⟨⟨u, hu, huid, hactive⟩, v, hv, hid, hrelated⟩
    exact ⟨u, hu, v, hv, ⟨⟨hid, huid⟩, hactive⟩, hrelated⟩

/-- No query guards against keys that rows of the database have. -/
theorem HasAccess.shaped (hk : KeysShaped db) (hlength : tokenHash.length = 64)
    (h : HasAccess db tokenHash vaultId now) :
    isTokenHash tokenHash = true ∧ vaultId.isEmpty = false := by
  obtain ⟨s, hs, rfl, -, -, v, hv, rfl, -⟩ := h
  exact ⟨hk.token s hs hlength, hk.vault v hv⟩

theorem utf8ByteSize_of_isTokenHash (h : isTokenHash tokenHash = true) :
    tokenHash.utf8ByteSize = 64 := by
  simp only [isTokenHash, Bool.and_eq_true, decide_eq_true_eq] at h
  exact h.1

theorem validSessionForVault_eq_true :
    db.validSessionForVault tokenHash vaultId now = true ↔
      tokenHash.utf8ByteSize = 64 ∧ vaultId.isEmpty = false ∧
        HasAccess db tokenHash vaultId now := by
  simp only [Database.validSessionForVault, Bool.and_eq_true, List.any_eq_true,
    decide_eq_true_eq, Bool.not_eq_true', and_assoc]
  refine and_congr_right fun _ => and_congr_right fun _ => ?_
  constructor
  · rintro ⟨s, hs, u, hu, v, hv, hid, hactive, hvid, htoken, hlive, hrelated⟩
    exact ⟨s, hs, htoken, hlive, activeUser_iff.mpr ⟨u, hu, hid, hactive⟩, v, hv, hvid, hrelated⟩
  · rintro ⟨s, hs, htoken, hlive, hactive, v, hv, hvid, hrelated⟩
    obtain ⟨u, hu, hid, hstatus⟩ := activeUser_iff.mp hactive
    exact ⟨s, hs, u, hu, v, hv, hid, hstatus, hvid, htoken, hlive, hrelated⟩

theorem validSessionForVault_iff (hk : KeysShaped db) (hlength : tokenHash.length = 64) :
    db.validSessionForVault tokenHash vaultId now = true ↔ HasAccess db tokenHash vaultId now := by
  rw [validSessionForVault_eq_true]
  constructor
  · exact fun h => h.2.2
  · intro h
    obtain ⟨hshape, hne⟩ := h.shaped hk hlength
    exact ⟨utf8ByteSize_of_isTokenHash hshape, hne, h⟩

theorem authorizedExpiry_isSome_iff :
    (db.authorizedExpiry tokenHash vaultId now).isSome = true ↔
      HasAccess db tokenHash vaultId now := by
  simp only [Database.authorizedExpiry, Option.isSome_map, List.find?_isSome, Bool.and_eq_true,
    decide_eq_true_eq, vaultAuthorization_iff, HasAccess, and_assoc]

/-- A full lifetime from now is later than now, as long as there is room for it. -/
theorem lt_renewedExpiry {ttlSecs : Int} (httl : 1 ≤ ttlSecs) (hlow : -9223372036854775808 ≤ now)
    (hroom : now + ttlSecs * 1000 ≤ 9223372036854775807) : now < renewedExpiry ttlSecs now := by
  unfold renewedExpiry saturate
  omega

/-- A renewal is the extension of a row the token had access by, so it takes none away. -/
theorem HasAccess.renewSession {ttlSecs : Int} (authorized : SessionRow → Bool)
    (hlater : now < renewedExpiry ttlSecs now) (h : HasAccess db tokenHash vaultId now) :
    HasAccess (db.renewSession tokenHash ttlSecs now authorized) tokenHash vaultId now := by
  obtain ⟨s, hs, htoken, hlive, hactive, hrelated⟩ := h
  refine ⟨_, List.mem_map_of_mem hs, ?_, ?_, ?_, ?_⟩
  · split <;> exact htoken
  · split
    · simp only [SessionRow.live, Bool.and_eq_true, decide_eq_true_eq] at hlive ⊢
      exact ⟨hlater, hlive.2⟩
    · exact hlive
  · split <;> exact hactive
  · split <;> exact hrelated

theorem renewSessionForVault_isSome_iff (hk : KeysShaped db) (hlength : tokenHash.length = 64)
    {ttlSecs : Int} (hlater : now < renewedExpiry ttlSecs now) :
    (db.renewSessionForVault tokenHash vaultId ttlSecs now).1.isSome = true ↔
      HasAccess db tokenHash vaultId now := by
  unfold Database.renewSessionForVault
  split
  · rename_i hguard
    refine iff_of_false (by simp) fun h => ?_
    obtain ⟨hshape, hne⟩ := h.shaped hk hlength
    rcases hguard with hsize | hempty
    · exact hsize (utf8ByteSize_of_isTokenHash hshape)
    · rw [hne] at hempty
      cases hempty
  · cases hexpiry : db.authorizedExpiry tokenHash vaultId now with
    | none =>
      refine iff_of_false (by simp) fun h => ?_
      rw [← authorizedExpiry_isSome_iff, hexpiry] at h
      cases h
    | some expiry =>
      have haccess : HasAccess db tokenHash vaultId now := by
        rw [← authorizedExpiry_isSome_iff, hexpiry]
        rfl
      refine iff_of_true ?_ haccess
      simp only
      split
      · rfl
      · rw [Option.isSome_map, authorizedExpiry_isSome_iff]
        exact haccess.renewSession _ hlater

/-- The row a token is authenticated by. -/
theorem authenticated_eq_some_iff (hc : Constraints db) {s : SessionRow} {u : UserRow} :
    db.authenticated tokenHash now = some (s, u) ↔
      s ∈ db.sessions ∧ s.tokenHash = tokenHash ∧ s.live now = true ∧ u ∈ db.users ∧
        u.id = s.userId ∧ u.status = .active := by
  unfold Database.authenticated
  constructor
  · intro h
    obtain ⟨r, hr, hrow⟩ := List.exists_of_findSome?_eq_some h
    split at hrow
    · rename_i hcond
      simp only [Bool.and_eq_true, decide_eq_true_eq] at hcond
      obtain ⟨w, hw, heq⟩ := Option.map_eq_some_iff.mp hrow
      cases heq
      have hstatus := List.find?_some hw
      simp only [Bool.and_eq_true, decide_eq_true_eq] at hstatus
      exact ⟨hr, hcond.1, hcond.2, List.mem_of_find?_eq_some hw, hstatus.1, hstatus.2⟩
    · cases hrow
  · rintro ⟨hs, htoken, hlive, hu, hid, hactive⟩
    have huser : (db.users.find? fun w => w.id = s.userId && w.status = .active) = some u := by
      cases hfind : db.users.find? fun w => w.id = s.userId && w.status = .active with
      | none =>
        have := List.find?_eq_none.mp hfind u hu
        simp [hid, hactive] at this
      | some w =>
        have hw := List.find?_some hfind
        simp only [Bool.and_eq_true, decide_eq_true_eq] at hw
        exact congrArg some (List.inj_on_of_nodup_map hc.userId (List.mem_of_find?_eq_some hfind)
          hu (hw.1.trans hid.symm))
    cases hfound : db.sessions.findSome? fun s =>
        if s.tokenHash = tokenHash && s.live now then
          (db.users.find? fun u => u.id = s.userId && u.status = .active).map fun u => (s, u)
        else none with
    | none =>
      have := List.findSome?_eq_none_iff.mp hfound s hs
      simp [htoken, hlive, huser] at this
    | some found =>
      obtain ⟨r, hr, hrow⟩ := List.exists_of_findSome?_eq_some hfound
      split at hrow
      · rename_i hcond
        simp only [Bool.and_eq_true, decide_eq_true_eq] at hcond
        have hsame : r = s :=
          List.inj_on_of_nodup_map hc.sessionToken hr hs (hcond.1.trans htoken.symm)
        rw [hsame, huser] at hrow
        exact hrow.symm
      · cases hrow

theorem authContextHash_iff (hc : Constraints db) (hk : KeysShaped db)
    (hlength : tokenHash.length = 64) :
    (∃ context, db.authContextHash tokenHash now = some context ∧
      (db.findAuthorizedVault context.userId vaultId).isSome = true) ↔
      HasAccess db tokenHash vaultId now := by
  constructor
  · rintro ⟨context, hcontext, hfound⟩
    unfold Database.authContextHash at hcontext
    split at hcontext
    · obtain ⟨⟨s, u⟩, hrow, rfl⟩ := Option.map_eq_some_iff.mp hcontext
      obtain ⟨hs, htoken, hlive, hu, hid, hactive⟩ := (authenticated_eq_some_iff hc).mp hrow
      refine ⟨s, hs, htoken, hlive, activeUser_iff.mpr ⟨u, hu, hid, hactive⟩, ?_⟩
      rw [← hid]
      exact (findAuthorizedVault_isSome_iff hc).mp hfound
    · cases hcontext
  · intro h
    obtain ⟨hshape, -⟩ := h.shaped hk hlength
    obtain ⟨s, hs, htoken, hlive, hactive, hrelated⟩ := h
    obtain ⟨u, hu, hid, hstatus⟩ := activeUser_iff.mp hactive
    have hrow := (authenticated_eq_some_iff hc).mpr ⟨hs, htoken, hlive, hu, hid, hstatus⟩
    refine ⟨.ofRow (s, u), by simp [Database.authContextHash, hshape, hrow], ?_⟩
    rw [← hid] at hrelated
    exact (findAuthorizedVault_isSome_iff hc).mpr hrelated

theorem authorizeMutation_iff (hc : Constraints db) :
    (∃ s ∈ db.sessions, s.tokenHash = tokenHash ∧
      db.authorizeMutation (some tokenHash) s.userId vaultId now = .ok ()) ↔
      HasAccess db tokenHash vaultId now := by
  simp only [authorizeMutation_ok, Option.some.injEq, exists_eq_left', vaultAccess_isSome_iff hc]
  constructor
  · rintro ⟨s, hs, htoken, ⟨⟨r, hr, hrt, hru, hexp, hrev⟩, hactive⟩, hrelated⟩
    have hsame : r = s := List.inj_on_of_nodup_map hc.sessionToken hr hs (hrt.trans htoken.symm)
    subst hsame
    exact ⟨r, hr, hrt, by simp [SessionRow.live, hexp, hrev], activeUser_iff.mpr hactive, hrelated⟩
  · rintro ⟨s, hs, htoken, hlive, hactive, hrelated⟩
    simp only [SessionRow.live, Bool.and_eq_true, decide_eq_true_eq, Option.isNone_iff_eq_none]
      at hlive
    exact ⟨s, hs, htoken, ⟨⟨s, hs, htoken, rfl, hlive.1, hlive.2⟩, activeUser_iff.mp hactive⟩,
      hrelated⟩

end Relation

/-! ## The listings -/

section Listings

variable {db : Database} {userId : Int} {vaultId : String}

theorem mem_listVaultsForUser (hcount : (db.vaults.length : Int) ≤ maxVaults) :
    vaultId ∈ (db.listVaultsForUser userId).map (·.id) ↔
      ∃ v ∈ db.vaults, v.id = vaultId ∧ v.ownerUserId = userId := by
  have hperm := List.perm_insertionSort VaultRow.createdBefore
    (db.vaults.filter fun v => v.ownerUserId = userId)
  have hle := List.length_filter_le (fun v : VaultRow => decide (v.ownerUserId = userId)) db.vaults
  unfold Database.listVaultsForUser
  rw [List.take_of_length_le (by rw [hperm.length_eq]; omega), List.map_map]
  simp only [List.mem_map, hperm.mem_iff, List.mem_filter, Function.comp_apply, VaultRow.toVault,
    decide_eq_true_eq]
  constructor
  · rintro ⟨v, ⟨hv, hown⟩, hid⟩
    exact ⟨v, hv, hid, hown⟩
  · rintro ⟨v, hv, hid, hown⟩
    exact ⟨v, ⟨hv, hown⟩, hid⟩

/-- The memberships that are listed, in their order. -/
def Database.sharedMemberships (db : Database) (userId : Int) : List MembershipRow :=
  (db.memberships.filter fun m =>
    m.userId = userId && m.active && db.activeUser m.userId).insertionSort
      MembershipRow.createdBefore

theorem mem_sharedMemberships (hactive : db.activeUser userId = true) {m : MembershipRow} :
    m ∈ db.sharedMemberships userId ↔
      m ∈ db.memberships ∧ m.userId = userId ∧ m.active = true := by
  unfold Database.sharedMemberships
  rw [(List.perm_insertionSort _ _).mem_iff]
  simp only [List.mem_filter, Bool.and_eq_true, decide_eq_true_eq, and_congr_right_iff, and_assoc]
  rintro - rfl
  exact ⟨fun h => h.1, fun h => ⟨h, hactive⟩⟩

/-- Every membership has its vault, so the listing has one entry for each. -/
theorem map_id_listSharedVaultsForUser (hc : Constraints db)
    (htotal : (db.memberships.length : Int) ≤ maxMemberships) :
    (db.listSharedVaultsForUser userId).map (·.vault.id) =
      (db.sharedMemberships userId).map (·.vaultId) := by
  have hsub : ∀ m ∈ db.sharedMemberships userId, m ∈ db.memberships := by
    intro m hm
    exact List.mem_of_mem_filter ((List.perm_insertionSort _ _).mem_iff.mp hm)
  have hlength : (db.sharedMemberships userId).length ≤ maxMemberships.toNat := by
    have hle := List.length_filter_le
      (fun m => m.userId = userId && m.active && db.activeUser m.userId) db.memberships
    unfold Database.sharedMemberships
    rw [(List.perm_insertionSort _ _).length_eq]
    omega
  have hall : db.listSharedVaultsForUser userId = (db.sharedMemberships userId).filterMap
      fun m => (db.vault? m.vaultId).map fun v =>
        { vault := v.toVault, shareUid := m.id, ownerUserId := v.ownerUserId } :=
    List.take_of_length_le ((List.length_filterMap_le _ _).trans hlength)
  rw [hall, List.map_filterMap, ← List.filterMap_eq_map]
  refine List.filterMap_congr fun m hm => ?_
  obtain ⟨v, hv, hid⟩ := hasVault_iff.mp (hc.membershipVault m (hsub m hm))
  simp [← hid, hc.vault?_eq hv, VaultRow.toVault]

theorem nodup_sharedMemberships (hc : Constraints db) :
    ((db.sharedMemberships userId).map (·.vaultId)).Nodup := by
  have hperm := List.perm_insertionSort MembershipRow.createdBefore
    (db.memberships.filter fun m => m.userId = userId && m.active && db.activeUser m.userId)
  unfold Database.sharedMemberships
  rw [(hperm.map _).nodup_iff]
  have hrows : (db.memberships.filter fun m =>
      m.userId = userId && m.active && db.activeUser m.userId).Nodup :=
    (List.Nodup.of_map _ hc.membershipId).filter _
  refine List.Nodup.map_on ?_ hrows
  intro m hm n hn hsame
  simp only [List.mem_filter, Bool.and_eq_true, decide_eq_true_eq] at hm hn
  have hm' : m ∈ db.memberships.filter (·.active) := List.mem_filter.mpr ⟨hm.1, hm.2.1.2⟩
  have hn' : n ∈ db.memberships.filter (·.active) := List.mem_filter.mpr ⟨hn.1, hn.2.1.2⟩
  exact List.inj_on_of_nodup_map hc.membershipActive hm' hn'
    (Prod.ext hsame (hm.2.1.1.trans hn.2.1.1.symm))

end Listings

/-! ## All paths agree -/

section Verified

variable {phc : PhcParser} {db : Database} {now : Int}

/-- The bytes of a text of lower-case hexadecimal digits are its characters. -/
theorem isTokenHash_of_lowerHex {s : String} (hlength : s.length = 64)
    (hsql : sqlLength s = 64) (hglob : globOutside isLowerHexDigit s = false) :
    isTokenHash s = true := by
  have hlist : s.toList.length = 64 := by rw [String.length_toList, hlength]
  have hwhole : sqlChars s = s.toList := by
    refine (List.takeWhile_prefix _).eq_of_length ?_
    unfold sqlLength sqlChars at hsql
    omega
  have hhex : ∀ c ∈ s.toList, isLowerHexDigit c = true := by
    unfold globOutside at hglob
    rw [hwhole] at hglob
    simpa using hglob
  have hbytes : s.utf8ByteSize = s.toList.length := by
    rw [utf8ByteSize_eq_utf8Len]
    exact utf8Len_of_ascii fun c hc => toNat_of_isLowerHexDigit (hhex c hc)
  simp only [isTokenHash, Bool.and_eq_true, decide_eq_true_eq, List.all_eq_true]
  refine ⟨by omega, fun c hc => ?_⟩
  simp [isAsciiHexDigit, hhex c hc]

theorem KeysShaped.of_verified (h : Database.verifyConnection phc db now = .ok ()) :
    KeysShaped db := by
  have hversion := (verifyRecordedSchema_ok.mp (verifyConnection_ok.mp h)).2.2.2.2
  have hlogical := hversion.logical
  have htable : .sessions ∈ db.tables := (hversion.tables _).mpr (by decide)
  refine ⟨fun s hs hlength => ?_, fun v hv => ?_⟩
  · obtain ⟨-, hsql, hglob, -⟩ := hlogical.session htable s hs
    exact isTokenHash_of_lowerHex hlength hsql hglob
  · have hpos := (sqlLength_pos_iff.mp (hlogical.vaultFields v hv).1.1).1
    rw [Bool.eq_false_iff]
    intro hempty
    rw [String.isEmpty_iff] at hempty
    exact hpos (by rw [hempty]; rfl)

end Verified

/-- In a verified database the five formulations of access are one relation, and the vaults
a user is authorized for are those of the two listings, which have none in common. -/
theorem authorization_paths_agree {phc : PhcParser} {s : Store} {verifiedAt : Int}
    (hverified : Database.verifyConnection phc s.db verifiedAt = .ok ()) :
    (∀ (tokenHash vaultId : String) (ttlSecs now : Int), tokenHash.length = 64 → 1 ≤ ttlSecs →
      -9223372036854775808 ≤ now → now + ttlSecs * 1000 ≤ 9223372036854775807 →
      (s.db.validSessionForVault tokenHash vaultId now = true ↔
        (s.db.renewSessionForVault tokenHash vaultId ttlSecs now).1.isSome = true) ∧
      (s.db.validSessionForVault tokenHash vaultId now = true ↔
        ∃ context, s.db.authContextHash tokenHash now = some context ∧
          (s.db.findAuthorizedVault context.userId vaultId).isSome = true) ∧
      (s.db.validSessionForVault tokenHash vaultId now = true ↔
        ∃ r ∈ s.db.sessions, r.tokenHash = tokenHash ∧
          s.db.authorizeMutation (some tokenHash) r.userId vaultId now = .ok ())) ∧
    ∀ userId, s.db.activeUser userId = true →
      (∀ vaultId, (s.db.findAuthorizedVault userId vaultId).isSome = true ↔
        vaultId ∈ (s.db.listVaultsForUser userId).map (·.id) ∨
          vaultId ∈ (s.db.listSharedVaultsForUser userId).map (·.vault.id)) ∧
      ((s.db.listVaultsForUser userId).map (·.id)).Disjoint
        ((s.db.listSharedVaultsForUser userId).map (·.vault.id)) ∧
      ((s.db.listSharedVaultsForUser userId).map (·.vault.id)).Nodup := by
  have hc := s.constraints
  have hk := KeysShaped.of_verified hverified
  have hversion := (verifyRecordedSchema_ok.mp (verifyConnection_ok.mp hverified)).2.2.2.2
  have hmembers := (verifyMembershipInvariants_ok hc).mp (hversion.membership (by decide))
  have hcount := hversion.logical.vaultCount
  constructor
  · intro tokenHash vaultId ttlSecs now hlength httl hlow hroom
    have hlater := lt_renewedExpiry httl hlow hroom
    rw [validSessionForVault_iff hk hlength, renewSessionForVault_isSome_iff hk hlength hlater,
      authContextHash_iff hc hk hlength, authorizeMutation_iff hc]
    exact ⟨Iff.rfl, Iff.rfl, Iff.rfl⟩
  · intro userId hactive
    simp only [map_id_listSharedVaultsForUser hc hmembers.total]
    refine ⟨fun vaultId => ?_, ?_, nodup_sharedMemberships hc⟩
    · rw [findAuthorizedVault_isSome_iff hc, mem_listVaultsForUser hcount]
      constructor
      · rintro ⟨v, hv, rfl, hrelated⟩
        rcases ownsOrJoined_iff.mp hrelated with hown | ⟨m, hm, hvault, huser, ha⟩
        · exact .inl ⟨v, hv, rfl, hown⟩
        · exact .inr (List.mem_map.mpr
            ⟨m, (mem_sharedMemberships hactive).mpr ⟨hm, huser, ha⟩, hvault⟩)
      · rintro (⟨v, hv, rfl, hown⟩ | hshared)
        · exact ⟨v, hv, rfl, ownsOrJoined_iff.mpr (.inl hown)⟩
        · obtain ⟨m, hm, rfl⟩ := List.mem_map.mp hshared
          obtain ⟨hmem, huser, ha⟩ := (mem_sharedMemberships hactive).mp hm
          obtain ⟨v, hv, hid⟩ := hasVault_iff.mp (hc.membershipVault m hmem)
          exact ⟨v, hv, hid, ownsOrJoined_iff.mpr (.inr ⟨m, hmem, hid.symm, huser, ha⟩)⟩
    · intro vaultId howned hshared
      obtain ⟨v, hv, rfl, hown⟩ := (mem_listVaultsForUser hcount).mp howned
      obtain ⟨m, hm, hvault⟩ := List.mem_map.mp hshared
      obtain ⟨hmem, huser, -⟩ := (mem_sharedMemberships hactive).mp hm
      exact hmembers.notOwner m hmem v hv hvault.symm (hown.trans huser.symm)

/-- The personal server's owner is signed in until time 1000. -/
theorem authorization_paths_agree_of_owner :
    personalServer.validSessionForVault someTokenHash "vault" 500 = true ∧
      (personalServer.renewSessionForVault someTokenHash "vault" 3600 500).1.isSome = true ∧
      "vault" ∈ (personalServer.listVaultsForUser 1).map (·.id) := by
  have hverified : Database.verifyConnection onePhc
      (⟨personalServer, constraints_personalServer⟩ : Store).db 500 = .ok () := by decide +kernel
  obtain ⟨hpaths, hlists⟩ := authorization_paths_agree hverified
  have hvalid : personalServer.validSessionForVault someTokenHash "vault" 500 = true := by
    decide +kernel
  refine ⟨hvalid, (hpaths someTokenHash "vault" 3600 500 (by decide +kernel) (by decide) (by decide)
    (by decide)).1.mp hvalid, ?_⟩
  have hfound := ((hlists 1 (by decide +kernel)).1 "vault").mp (by decide +kernel)
  exact hfound.resolve_right (by decide +kernel)

end Blackglass
