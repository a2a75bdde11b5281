import Blackglass.Markers
import Blackglass.RevisionStore

/-!
# A recovery epoch keeps everything but the identities

Two databases are related by `Renaming` when they hold the same vaults and revisions under
different vault ids.  Whatever is computed for one vault (its heads, its size, its highest
`uid`) is then the same on both sides, and so are the verifier's checks, which is why
a rotated database is accepted again.
-/

namespace Blackglass

open Rows Outcome Text

/-! ## Renamings -/

/-- The second database holds the vaults and revisions of the first under other ids. -/
structure Renaming (f : String → String) (db db' : Database) : Prop where
  injective : Set.InjOn f { id | db.hasVault id = true }
  vaults : db'.vaults.Perm (db.vaults.map fun v => { v with id := f v.id })
  revisions : db'.revisions = db.revisions.map fun r => { r with vaultId := f r.vaultId }
  revisionContent : db'.revisionContent = db.revisionContent

namespace Renaming

variable {f : String → String} {db db' : Database} {id : String}

/-- The vaults correspond one to one. -/
theorem bijective (h : Renaming f db db') :
    Set.BijOn f { id | db.hasVault id = true } { id | db'.hasVault id = true } := by
  refine ⟨fun id hid => ?_, h.injective, fun id hid => ?_⟩
  · obtain ⟨v, hv, rfl⟩ := hasVault_iff.mp hid
    exact hasVault_iff.mpr ⟨_, h.vaults.mem_iff.mpr (List.mem_map_of_mem hv), rfl⟩
  · obtain ⟨w, hw, rfl⟩ := hasVault_iff.mp hid
    obtain ⟨v, hv, rfl⟩ := List.mem_map.mp (h.vaults.mem_iff.mp hw)
    exact ⟨v.id, hasVault_iff.mpr ⟨v, hv, rfl⟩, rfl⟩

/-- So do the revisions of each vault. -/
theorem revisionsOf (h : Renaming f db db') (hc : Constraints db) (hid : db.hasVault id = true) :
    db'.revisionsOf (f id) =
      (db.revisionsOf id).map fun r => { r with vaultId := f r.vaultId } := by
  unfold Database.revisionsOf
  rw [h.revisions, List.filter_map]
  refine congrArg _ (List.filter_congr fun r hr => ?_)
  rw [Function.comp_apply, decide_eq_decide]
  exact ⟨fun heq => h.injective (hc.revisionVault r hr) hid heq, congrArg f⟩

theorem headUids (h : Renaming f db db') (hc : Constraints db) (hid : db.hasVault id = true) :
    db'.headUids (f id) = db.headUids id := by
  show groupMax _ _ (db'.revisionsOf (f id)) = groupMax _ _ (db.revisionsOf id)
  rw [h.revisionsOf hc hid, groupMax_map]
  rfl

theorem liveSize (h : Renaming f db db') (hc : Constraints db) (hid : db.hasVault id = true) :
    db'.liveSize (f id) = db.liveSize id := by
  rw [liveSize_eq, liveSize_eq, h.revisionsOf hc hid]
  exact liveSizeOf_map (fun _ => rfl) (fun _ => rfl) (fun _ => rfl) (fun _ => rfl) fun _ => rfl

theorem maxUidOf (h : Renaming f db db') (hc : Constraints db) (hid : db.hasVault id = true) :
    db'.maxUidOf (f id) = db.maxUidOf id := by
  show maxOr0 ((db'.revisionsOf (f id)).map (·.uid)) = maxOr0 ((db.revisionsOf id).map (·.uid))
  rw [h.revisionsOf hc hid, List.map_map]
  rfl

end Renaming

/-- A rotation renames. -/
theorem Rotated.renaming {db db' : Database} {newIds : List String} {now : Int}
    (hc : Constraints db) (hfresh : FreshIds db newIds)
    (h : Rotated db (db.replacements newIds) now db') :
    Renaming (rename (db.replacements newIds)) db db' where
  injective := by
    intro id hid id' hid' heq
    obtain ⟨v, hv, rfl⟩ := hasVault_iff.mp hid
    obtain ⟨w, hw, rfl⟩ := hasVault_iff.mp hid'
    obtain ⟨r, hr, hold⟩ := hfresh.exists_replacement hv
    obtain ⟨s, hs, hold'⟩ := hfresh.exists_replacement hw
    rw [← hold, ← hold', rename_of_mem (hfresh.nodup_oldId hc) hr,
      rename_of_mem (hfresh.nodup_oldId hc) hs] at heq
    have hnodup : ((db.replacements newIds).map (·.newId)).Nodup := by
      rw [hfresh.map_newId]
      exact hfresh.nodup
    rw [← hold, ← hold', List.inj_on_of_nodup_map hnodup hr hs heq]
  vaults := h.vaults
  revisions := h.revisions
  revisionContent := h.revisionContent

/-! ## New identities -/

/-- The text of a UUID, in groups of hexadecimal digits. -/
def uuidText (bytes : Vector UInt8 16) : String :=
  hexEncode (bytes.toList.take 4) ++ "-" ++ hexEncode ((bytes.toList.drop 4).take 2) ++ "-" ++
    hexEncode ((bytes.toList.drop 6).take 2) ++ "-" ++ hexEncode ((bytes.toList.drop 8).take 2) ++
    "-" ++ hexEncode (bytes.toList.drop 10)

theorem isAsciiGraphic_of_mem_uuidText {bytes : Vector UInt8 16} {c : Char}
    (h : c ∈ (uuidText bytes).toList) : isAsciiGraphic c = true := by
  have hhex : ∀ b, c ∈ (hexEncode b).toList → isAsciiGraphic c = true := fun b hc =>
    isAsciiGraphic_of_isLowerHexDigit (isLowerHexDigit_of_mem_hexEncode hc)
  have hdash : c ∈ "-".toList → isAsciiGraphic c = true := by
    intro hc
    obtain rfl : c = '-' := by simpa using hc
    decide
  simp only [uuidText, String.toList_append, List.mem_append] at h
  rcases h with (((((((h | h) | h) | h) | h) | h) | h) | h) | h
  · exact hhex _ h
  · exact hdash h
  · exact hhex _ h
  · exact hdash h
  · exact hhex _ h
  · exact hdash h
  · exact hhex _ h
  · exact hdash h
  · exact hhex _ h

theorem sqlLength_uuidText (bytes : Vector UInt8 16) : sqlLength (uuidText bytes) = 36 := by
  have hhex : ∀ b : List UInt8, (hexEncode b).toList.length = 2 * b.length := by
    intro b
    have := sqlLength_hexEncode b
    rw [sqlLength, sqlChars_hexEncode] at this
    exact_mod_cast this
  rw [sqlLength, sqlChars_of_graphic fun c hc => isAsciiGraphic_of_mem_uuidText hc]
  simp [uuidText, String.toList_append, hhex]

/-! ## The verifier on both sides -/

section Verified

variable {phc : PhcParser} {db db' : Database} {newIds : List String} {verifiedAt now : Int}

theorem MembershipInvariants.of_nil (h : MembershipInvariants db) (hnone : db'.memberships = [])
    (hsequence : db'.sqliteSequence = db.sqliteSequence) : MembershipInvariants db' where
  id := by simp [hnone]
  vault := by simp [hnone]
  notOwner := by simp [hnone]
  total := by
    rw [hnone]
    decide
  active vaultId := by
    unfold Database.activeMemberships
    rw [hnone, List.filter_nil]
    decide
  revoked vaultId := by
    unfold Database.revokedMemberships
    rw [hnone, List.filter_nil]
    decide
  sequence seq hseq := by
    unfold Database.sequence at hseq
    rw [hsequence] at hseq
    exact h.sequence seq hseq
  issued := by simp [hnone]
  sequenceRows := by
    rw [hsequence]
    exact h.sequenceRows

/-- The markers after a rotation have valid columns if the clock's reading is one. -/
theorem Rotated.retired (h : Rotated db (db.replacements newIds) now db')
    (hlogical : LogicalInvariants phc db true true verifiedAt) (ht : .retiredVaults ∈ db.tables)
    (hnow : db.vaults = [] ∨ safeFrom 0 now) : ∀ r ∈ db'.retiredVaults, r.Valid true := by
  obtain ⟨kept, hretired, hsub, -⟩ := h.retiredVaults
  intro r hr
  rw [hretired] at hr
  rcases List.mem_append.mp hr with hr | hr
  · exact hlogical.retired ht r (hsub.subset hr)
  · obtain ⟨a, ha, rfl⟩ := List.mem_map.mp hr
    obtain ⟨⟨v, hv, hid, howner⟩, -⟩ := exists_of_mem_replacements ha
    have hsafe : safeFrom 0 now := hnow.resolve_left (List.ne_nil_of_mem hv)
    obtain ⟨hlength, -, -, -, -, -, -, -, hownerSafe⟩ := hlogical.vaultFields v hv
    refine ⟨fun hmulti => ?_, ?_, hsafe⟩
    · show safeFrom 1 a.ownerUserId
      rw [← howner]
      exact hownerSafe hmulti
    · show between 1 64 (sqlLength a.oldId)
      rw [← hid]
      exact hlength

theorem Rotated.logicalInvariants (hc : Constraints db) (hfresh : FreshIds db newIds)
    (hlength : ∀ id ∈ newIds, between 1 64 (sqlLength id))
    (h : Rotated db (db.replacements newIds) now db') (hm : Markers db')
    (hlogical : LogicalInvariants phc db true true verifiedAt) (ht : .retiredVaults ∈ db.tables)
    (hnow : db.vaults = [] ∨ safeFrom 0 now) (verifiedAt' : Int) :
    LogicalInvariants phc db' true true verifiedAt' := by
  have hrenaming := h.renaming hc hfresh
  set f := rename (db.replacements newIds) with hf
  have hnewLength : ∀ id, db.hasVault id = true → between 1 64 (sqlLength (f id)) := by
    intro id hid
    obtain ⟨v, hv, rfl⟩ := hasVault_iff.mp hid
    obtain ⟨r, hr, hold⟩ := hfresh.exists_replacement hv
    rw [hf, ← hold, rename_of_mem (hfresh.nodup_oldId hc) hr]
    exact hlength _ (exists_of_mem_replacements hr).2
  have hvaults : ∀ w ∈ db'.vaults, ∃ v ∈ db.vaults, w = { v with id := f v.id } ∧
      db.hasVault v.id = true := by
    intro w hw
    obtain ⟨v, hv, rfl⟩ := List.mem_map.mp (h.vaults.mem_iff.mp hw)
    exact ⟨v, hv, rfl, hasVault_iff.mpr ⟨v, hv, rfl⟩⟩
  have hrevisions : ∀ s ∈ db'.revisions, ∃ r ∈ db.revisions,
      s = { r with vaultId := f r.vaultId } := by
    intro s hs
    rw [h.revisions] at hs
    obtain ⟨r, hr, rfl⟩ := List.mem_map.mp hs
    exact ⟨r, hr, rfl⟩
  have hsequence : ∀ name, db'.sequence name = db.sequence name := fun name => by
    unfold Database.sequence
    rw [h.sqliteSequence]
  have hrows : ∀ name, db'.sequenceRows name = db.sequenceRows name := fun name => by
    unfold Database.sequenceRows
    rw [h.sqliteSequence]
  exact {
    user := by rw [h.users]; exact hlogical.user
    userCount := by rw [h.users]; exact hlogical.userCount
    passwordHash := by rw [h.users]; exact hlogical.passwordHash
    vaultFields := by
      intro w hw
      obtain ⟨v, hv, rfl, hid⟩ := hvaults w hw
      exact ⟨hnewLength v.id hid, (hlogical.vaultFields v hv).2⟩
    credentials := by
      intro w hw
      obtain ⟨v, hv, rfl, -⟩ := hvaults w hw
      exact hlogical.credentials v hv
    vaultCount := by
      rw [h.vaults.length_eq, List.length_map]
      exact hlogical.vaultCount
    revision := by
      intro s hs
      obtain ⟨r, hr, rfl⟩ := hrevisions s hs
      obtain ⟨huid, -, hrest⟩ := hlogical.revision r hr
      exact ⟨huid, hnewLength r.vaultId (hc.revisionVault r hr), hrest⟩
    notice := by
      intro s hs
      obtain ⟨r, hr, rfl⟩ := hrevisions s hs
      exact hlogical.notice r hr
    content := by
      intro s hs
      obtain ⟨r, hr, rfl⟩ := hrevisions s hs
      have hvalid := hlogical.content r hr
      unfold RevisionRow.ContentValid at hvalid ⊢
      rw [h.revisionContent]
      exact hvalid
    sequenceRow := by
      unfold Database.allowedSequences
      rw [h.sqliteSequence, h.tables]
      exact hlogical.sequenceRow
    revisionSequence := by rw [hrows]; exact hlogical.revisionSequence
    userSequence := by rw [hrows]; exact hlogical.userSequence
    userHighWater := by rw [hsequence, h.users]; exact hlogical.userHighWater
    version := by
      intro w hw
      obtain ⟨v, hv, rfl, hid⟩ := hvaults w hw
      rw [hsequence, hrenaming.maxUidOf hc hid]
      exact hlogical.version v hv
    size := by
      intro w hw
      obtain ⟨v, hv, rfl, hid⟩ := hvaults w hw
      rw [hrenaming.liveSize hc hid]
      exact hlogical.size v hv
    migration := by rw [h.tables, h.schemaMigrations]; exact hlogical.migration
    session := by simp [h.sessions]
    sessionCount := by
      intro _
      rw [h.sessions]
      decide
    sessionsPerUser := by simp [h.sessions]
    retired := fun _ => h.retired hlogical ht hnow
    retiredPerOwner := fun _ _ r _ => hm.perOwner r.ownerUserId
    retiredCount := fun _ => hm.total
    disjoint := fun _ => hm.disjoint }

/-- A rotated database is accepted, at any later time, exactly if the time that its markers
carry is one the verifier accepts. -/
theorem Rotated.verifyConnection_iff (hc : Constraints db) (hc' : Constraints db')
    (hfresh : FreshIds db newIds) (hlength : ∀ id ∈ newIds, between 1 64 (sqlLength id))
    (h : Rotated db (db.replacements newIds) now db') (hm : Markers db')
    (hverified : Database.verifyConnection phc db verifiedAt = .ok ()) (verifiedAt' : Int) :
    Database.verifyConnection phc db' verifiedAt' = .ok () ↔
      db.vaults = [] ∨ safeFrom 0 now := by
  obtain ⟨htable, hne, hstart, hlast, hversion⟩ :=
    verifyRecordedSchema_ok.mp (verifyConnection_ok.mp hverified)
  have ht : .retiredVaults ∈ db.tables := (hversion.tables _).mpr (by decide)
  constructor
  · intro haccepted
    cases hvaults : db.vaults with
    | nil => exact .inl rfl
    | cons v vs =>
      have hv : v ∈ db.vaults := hvaults ▸ List.mem_cons_self
      obtain ⟨r, hr, -⟩ := hfresh.exists_replacement hv
      obtain ⟨kept, hretired, -⟩ := h.retiredVaults
      have hmarker : r.marker now ∈ db'.retiredVaults := by
        rw [hretired]
        exact List.mem_append_right _ (List.mem_map_of_mem hr)
      have ht' : .retiredVaults ∈ db'.tables := h.tables ▸ ht
      exact .inr ((LogicalInvariants.of_verifyConnection haccepted).retired ht' _ hmarker).2.2
  · intro hnow
    have hmigrations : db'.migrationVersions = db.migrationVersions := by
      unfold Database.migrationVersions
      rw [h.schemaMigrations]
    have husers : ∀ id, db'.hasUser id = db.hasUser id := fun id => by
      unfold Database.hasUser
      rw [h.users]
    refine verifyConnection_ok.mpr (verifyRecordedSchema_ok.mpr ⟨h.tables ▸ htable,
      hmigrations ▸ hne, hmigrations ▸ hstart, hmigrations ▸ hlast, ?_⟩)
    exact {
      supported := hversion.supported
      tables := by rw [h.tables]; exact hversion.tables
      foreignKeys := by
        refine ⟨hc'.revisionVault, fun _ c hcontent => ?_, fun _ => ⟨hc'.vaultOwner,
          hc'.revisionUser, hc'.sessionUser, hc'.retiredOwner⟩, fun _ m hmem => ⟨hc'.membershipVault
          m hmem, hc'.membershipUser m hmem, hc'.membershipInviter m hmem⟩, fun h₇ row hrow => ?_⟩
        · obtain ⟨r, hr, huid⟩ := hc'.contentRevision c hcontent
          exact List.any_eq_true.mpr ⟨r, hr, decide_eq_true huid⟩
        · rw [h.serverSettings] at hrow
          rw [husers]
          exact hversion.foreignKeys.2.2.2.2 h₇ row hrow
      logical := h.logicalInvariants hc hfresh hlength hm hversion.logical ht hnow verifiedAt'
      membership := fun h₆ => (verifyMembershipInvariants_ok hc').mpr
        (((verifyMembershipInvariants_ok hc).mp (hversion.membership h₆)).of_nil h.memberships
          h.sqliteSequence)
      v7 := fun h₇ => by
        obtain ⟨hadmin, hsettings⟩ := hversion.v7 h₇
        exact ⟨h.users ▸ hadmin, h.serverSettings ▸ hsettings⟩ }

end Verified

/-- A rotation of a verified database that succeeds is a renaming of its vaults: ids that
were neither active nor retired take the place of the old ones, one for one, and vault rows,
revisions, contents, heads and sizes are the image of the old ones.  Users stay, sessions and
memberships go.  Every old id is a marker of its owner and no longer active; of the earlier
markers each owner keeps the newest, with at most 512 in all.  The verifier accepts the
result if it accepts the time on the new markers.  A rotation that fails changes nothing. -/
theorem rotation_renames {phc : PhcParser} {s : Store} {verifiedAt now : Int}
    {uuids : List (Vector UInt8 16)} {newIds : List String}
    (hverified : Database.verifyConnection phc s.db verifiedAt = .ok ())
    (hdraw : drawIds (uuids.map uuidText) s.db.reservedIds s.db.vaults.length = some newIds) :
    (∀ n db', s.db.offline.rotateRecoveryEpoch newIds now = .ok (n, db') →
      (∃ f : String → String,
        Set.BijOn f { id | s.db.hasVault id = true } { id | db'.hasVault id = true } ∧
        (∀ id, s.db.hasVault id = true →
          s.db.hasVault (f id) = false ∧ ∀ r ∈ s.db.retiredVaults, r.id ≠ f id) ∧
        db'.vaults.Perm (s.db.vaults.map fun v => { v with id := f v.id }) ∧
        db'.revisions = s.db.revisions.map (fun r => { r with vaultId := f r.vaultId }) ∧
        db'.revisionContent = s.db.revisionContent ∧
        ∀ id, s.db.hasVault id = true → db'.headUids (f id) = s.db.headUids id ∧
          db'.maxUidOf (f id) = s.db.maxUidOf id ∧ db'.liveSize (f id) = s.db.liveSize id) ∧
      db'.users = s.db.users ∧ db'.sessions = [] ∧ db'.memberships = [] ∧
      (∀ v ∈ s.db.vaults, db'.hasVault v.id = false ∧
        { id := v.id, ownerUserId := v.ownerUserId, retiredAt := now } ∈ db'.retiredVaults) ∧
      (∀ owner, ((db'.retiredVaults.filter (ownedBy owner)).length : Int) ≤
        maxRetiredVaultsPerOwner) ∧
      (∀ r ∈ s.db.retiredVaults, r ∉ db'.retiredVaults →
        ((db'.retiredVaults.filter (ownedBy r.ownerUserId)).length : Int) =
          maxRetiredVaultsPerOwner ∧
        ∀ k ∈ s.db.retiredVaults, k ∈ db'.retiredVaults → k.ownerUserId = r.ownerUserId →
          k.newerThan r) ∧
      ∀ verifiedAt', Database.verifyConnection phc db' verifiedAt' = .ok () ↔
        s.db.vaults = [] ∨ safeFrom 0 now) ∧
    ∀ error s', s.db.offline.rotateRecoveryEpoch newIds now = .error error →
      s.Retire (.rotateRecoveryEpoch newIds now) s' → s' = s := by
  constructor
  · intro n db' hok
    have hversion := (verifyRecordedSchema_ok.mp (verifyConnection_ok.mp hverified)).2.2.2.2
    have hstart : Markers s.db := hversion.logical.markers ((hversion.tables _).mpr (by decide))
    have hm : Markers s.db.offline := ⟨hstart.perOwner, hstart.total, hstart.disjoint⟩
    have hc : Constraints s.db.offline := { s.constraints with }
    have hids : FreshIds s.db.offline newIds := { FreshIds.of_drawIds hdraw with }
    have hlength : ∀ id ∈ newIds, between 1 64 (sqlLength id) := by
      intro id hid
      obtain ⟨bytes, -, rfl⟩ := List.mem_map.mp ((drawIds_eq_some hdraw).2.2.1 id hid)
      rw [sqlLength_uuidText]
      decide
    have hrotated := rotated_of_ok hc hids hm.disjoint hok
    have hrenaming := hrotated.renaming hc hids
    have hretirement := hrotated.retirement hc hids hm
    have hm' : Markers db' := hretirement.markers hc hm hids.notRetired
    refine ⟨⟨rename (s.db.replacements newIds), hrenaming.bijective, fun id hid => ?_,
      hrenaming.vaults, hrenaming.revisions, hrenaming.revisionContent, fun id hid => ?_⟩,
      hrotated.users, hrotated.sessions, hrotated.memberships, fun v hv => ?_, hm'.perOwner,
      fun r hr hgone => ?_, ?_⟩
    · obtain ⟨v, hv, rfl⟩ := hasVault_iff.mp hid
      obtain ⟨r, hr, hold⟩ := hids.exists_replacement hv
      have hnew := (exists_of_mem_replacements hr).2
      have hrename : rename (s.db.replacements newIds) v.id = r.newId :=
        hold ▸ rename_of_mem (hids.nodup_oldId hc) hr
      rw [hrename]
      exact ⟨hasVault_eq_false_iff.mpr (hids.notActive _ hnew), hids.notRetired _ hnew⟩
    · exact ⟨hrenaming.headUids hc hid, hrenaming.maxUidOf hc hid, hrenaming.liveSize hc hid⟩
    · obtain ⟨r, hr, hold⟩ := hids.exists_replacement hv
      obtain ⟨⟨w, hw, hid, howner⟩, -⟩ := exists_of_mem_replacements hr
      obtain rfl : w = v := s.constraints.eq_of_vaultId hw hv (hid.trans hold)
      have hmarker : r.marker now ∈ (s.db.replacements newIds).map (Replacement.marker now) :=
        List.mem_map_of_mem hr
      have hgone := hretirement.gone _ hmarker
      have hmem := hretirement.retiredVaults.mem_iff.mpr (List.mem_append_right _ hmarker)
      simp only [Replacement.marker, ← hid, ← howner] at hgone hmem
      exact ⟨hgone, hmem⟩
    · obtain ⟨-, -, hnewer⟩ := hretirement.dropped hc hm hr hgone
      exact ⟨hretirement.full hc hm hr hgone, hnewer⟩
    · intro verifiedAt'
      have hverified' : Database.verifyConnection phc s.db.offline verifiedAt = .ok () := hverified
      exact hrotated.verifyConnection_iff hc (hc.rotateRecoveryEpoch hok) hids hlength hm'
        hverified' verifiedAt'
  · intro error s' herror hstep
    cases hstep with
    | commit hok =>
      simp only [VaultOperation.execute, bind_eq_ok, Prod.exists] at hok
      obtain ⟨n, db, hok, -⟩ := hok
      rw [herror] at hok
      cases hok
    | rollback _ => rfl

/-- The personal server after a rotation that drew the UUID of zeros. -/
def rotatedServer : Database :=
  { personalServer with
    vaults := personalServer.vaults.map fun v => { v with id := uuidText (Vector.replicate 16 0) }
    sessions := []
    retiredVaults := [{ id := "vault", ownerUserId := 1, retiredAt := 600 }]
    runtimeStorageUsage := none }

theorem rotation_renames_personalServer :
    personalStore.db.offline.rotateRecoveryEpoch [uuidText (Vector.replicate 16 0)] 600 =
        .ok (1, rotatedServer) ∧
      rotatedServer.hasVault "00000000-0000-0000-0000-000000000000" = true ∧
      Database.verifyConnection onePhc rotatedServer 700 = .ok () := by
  have hinit : Database.verifyConnection onePhc personalStore.db 500 = .ok () := by decide +kernel
  have hdraw : drawIds ([Vector.replicate 16 0].map uuidText) personalStore.db.reservedIds
      personalStore.db.vaults.length = some [uuidText (Vector.replicate 16 0)] := by
    decide +kernel
  have hok : personalStore.db.offline.rotateRecoveryEpoch [uuidText (Vector.replicate 16 0)] 600 =
      .ok (1, rotatedServer) := by decide +kernel
  have hrotated := (rotation_renames hinit hdraw).1 1 rotatedServer hok
  exact ⟨hok, by decide +kernel, (hrotated.2.2.2.2.2.2.2 700).mpr (.inr (by decide))⟩

end Blackglass
