import Blackglass.Authority

/-!
# What a data connection reads

The queries that answer a data connection.  They look into tables that all vaults share:
`uid`s are server-wide, heads are joined on the `uid` alone, and a piece of content is found
without its vault.  `Agree` relates two databases that have the same rows of one vault and of
the session that reads it; every query below answers the same on both.
-/

namespace Blackglass

open Rows Outcome

/-! ## Queries -/

/-- `model.rs`, `PullInfo`. -/
structure PullInfo where
  vaultId : String
  hash : String
  size : Int
  pieces : Int
  folder : Bool
  deleted : Bool
  hasContent : Bool
deriving DecidableEq

namespace Database

def pullInfo (db : Database) (uid : Int) : Option PullInfo :=
  (db.revision? uid).map fun r =>
    { vaultId := r.vaultId, hash := r.hash, size := r.size, pieces := r.pieces,
      folder := r.folder, deleted := r.deleted,
      hasContent := r.content.isSome || (db.content? r.uid).isSome }

/-- The columns of the model hold nothing but `BLOB`s, so of the two comparisons with
`typeof` nothing is left. -/
def contentChunk (db : Database) (uid offset length : Int) : Except DbError Blob := do
  rejectIf (offset < 0 ∨ ¬(0 ≤ length ∧ length ≤ revisionPieceSize))
    (.bail "invalid revision content chunk bounds")
  rejectIf (9223372036854775807 < offset + length) (.bail "revision content chunk bounds overflow")
  let r ← orReject (db.revision? uid) (.bail "revision content metadata not found")
  rejectIf (r.size < offset + length) (.bail "revision content chunk exceeds declared size")
  rejectIf ((db.content? uid).isSome = r.content.isSome)
    (.bail "revision content storage is missing, duplicated, or not a BLOB")
  let blob := (((db.content? uid).map (·.content)).or r.content).getD []
  rejectIf ((blob.length : Int) ≠ r.size) (.bail "revision content length changed after validation")
  return (blob.drop offset.toNat).take length.toNat

/-- The `WHERE` clause of `list_deleted_page`: a tombstone at the head of its path, over a
revision that was not one, and no file that was renamed from it if those are suppressed. -/
def listedAsDeleted (db : Database) (vault : String) (suppress : Bool) (r : RevisionRow) : Bool :=
  r.uid ∈ db.headUids vault && r.deleted &&
    (db.revisions.any fun prior => prior.vaultId = r.vaultId && prior.path = r.path &&
      prior.uid < r.uid && !prior.deleted) &&
    (!suppress || !db.revisions.any fun live => live.uid ∈ db.headUids r.vaultId &&
      !live.deleted && live.relatedpath = some r.path)

def listDeletedPage (db : Database) (vault : String) (suppress : Bool) (after limit : Int) :
    List Revision :=
  pageByUid (db.revisions.filter fun r =>
    db.listedAsDeleted vault suppress r && r.uid > max after 0) limit

/-- `history`: `ORDER BY uid DESC LIMIT ?`. -/
def historyPage (db : Database) (vault path : String) (last : Option Int) (limit : Int) :
    List Revision :=
  (sortedRevisions (db.revisions.filter fun r =>
    r.vaultId = vault && r.path = path && last.all (r.uid < ·))).reverse.take limit.toNat

/-- The source returns a map from the decimal ids. -/
def usernamesForVault (db : Database) (vault : String) : List (Int × String) :=
  (((db.users.filter fun u => (db.vault? vault).any (·.ownerUserId = u.id) ||
    db.revisions.any fun r => r.vaultId = vault && r.userId = u.id).insertionSort
      fun u w => u.id ≤ w.id).take maxUsers.toNat).map fun u => (u.id, u.name)

/-- `stored_ciphertext_size_for_vault_owner`. -/
def storedCiphertextSizeForVaultOwner (db : Database) (vault : String) : Option Int :=
  (db.vault? vault).map fun v => db.ownerStoredCiphertextSize v.ownerUserId

end Database

/-! ## Two databases that agree on a vault -/

/-- The two databases have the same row of the vault, the same revisions of it with the same
content, and the same rows that authorise the token: its session, the session's user, and that
user's memberships in the vault. -/
structure Agree (tokenHash vault : String) (db db' : Database) : Prop where
  vaults : ∀ v : VaultRow, v.id = vault → (v ∈ db.vaults ↔ v ∈ db'.vaults)
  revisions : ∀ r : RevisionRow, r.vaultId = vault → (r ∈ db.revisions ↔ r ∈ db'.revisions)
  contents : ∀ r ∈ db.revisions, r.vaultId = vault → ∀ c : RevisionContentRow, c.uid = r.uid →
    (c ∈ db.revisionContent ↔ c ∈ db'.revisionContent)
  sessions : ∀ s : SessionRow, s.tokenHash = tokenHash → (s ∈ db.sessions ↔ s ∈ db'.sessions)
  users : ∀ s ∈ db.sessions, s.tokenHash = tokenHash → ∀ u : UserRow, u.id = s.userId →
    (u ∈ db.users ↔ u ∈ db'.users)
  memberships : ∀ s ∈ db.sessions, s.tokenHash = tokenHash → ∀ m : MembershipRow,
    m.vaultId = vault → m.userId = s.userId → (m ∈ db.memberships ↔ m ∈ db'.memberships)

namespace Agree

variable {tokenHash vault : String} {db db' : Database}

theorem symm (h : Agree tokenHash vault db db') : Agree tokenHash vault db' db where
  vaults v hv := (h.vaults v hv).symm
  revisions r hr := (h.revisions r hr).symm
  contents r hr hid c hc := (h.contents r ((h.revisions r hid).mpr hr) hid c hc).symm
  sessions s hs := (h.sessions s hs).symm
  users s hs ht u hu := (h.users s ((h.sessions s ht).mpr hs) ht u hu).symm
  memberships s hs ht m hm hu := (h.memberships s ((h.sessions s ht).mpr hs) ht m hm hu).symm

/-- Databases that have the same of a vault, and the same accounts, agree on it: what a request
on another vault leaves (`Effect.tenant`). -/
theorem of_tenant (hc : Constraints db)
    (hc' : Constraints db') (htenant : db.tenant vault = db'.tenant vault)
    (hsessions : db.sessions = db'.sessions) (husers : db.users = db'.users) :
    Agree tokenHash vault db db' where
  vaults := fun v hv => by
    have hmem := congrArg (v ∈ ·) (congrArg Tenant.vaults htenant)
    simpa [Database.tenant, hv] using hmem
  revisions := fun r hr => by
    have hmem := congrArg (r ∈ ·) (congrArg Tenant.revisions htenant)
    simpa [Database.tenant, mem_revisionsOf, hr] using hmem
  contents := fun r hr hid c hcu => by
    have hrevisions : db.revisionsOf vault = db'.revisionsOf vault :=
      congrArg Tenant.revisions htenant
    have hcontents : (db.revisionsOf vault).map (fun r => db.content? r.uid) =
        (db'.revisionsOf vault).map fun r => db'.content? r.uid :=
      congrArg Tenant.contents htenant
    rw [← hrevisions] at hcontents
    have hcontent : db.content? r.uid = db'.content? r.uid :=
      List.map_inj_left.mp hcontents r (mem_revisionsOf.mpr ⟨hr, hid⟩)
    have hfind : ∀ {db : Database}, Constraints db →
        (c ∈ db.revisionContent ↔ db.content? r.uid = some c) := by
      intro db hc
      rw [← hcu]
      exact ⟨fun hmem => Rows.find_key_of_mem hc.contentUid hmem, List.mem_of_find?_eq_some⟩
    rw [hfind hc, hfind hc', hcontent]
  sessions := fun s _ => by rw [hsessions]
  users := fun _ _ _ u _ => by rw [husers]
  memberships := fun _ _ _ m hm _ => by
    have hmem := congrArg (m ∈ ·) (congrArg Tenant.memberships htenant)
    simpa [Database.tenant, Database.membershipsOf, hm] using hmem

/-! ## The rows of the vault -/

theorem vault?_eq (h : Agree tokenHash vault db db') (hc : Constraints db') :
    db.vault? vault = db'.vault? vault := by
  refine find?_eq_of_unique
    (fun v => and_congr_left fun hv => h.vaults v (of_decide_eq_true hv)) ?_
  intro v hv w hw hvid hwid
  exact hc.eq_of_vaultId hv hw ((of_decide_eq_true hvid).trans (of_decide_eq_true hwid).symm)

/-- A selection of the vault's rows, in order. -/
theorem sortedRevisions_eq (h : Agree tokenHash vault db db') (hc : Constraints db)
    (hc' : Constraints db') {p p' : RevisionRow → Bool}
    (hvault : ∀ r ∈ db.revisions, p r = true → r.vaultId = vault)
    (hvault' : ∀ r ∈ db'.revisions, p' r = true → r.vaultId = vault)
    (hsame : ∀ r ∈ db.revisions, r.vaultId = vault → p r = p' r) :
    sortedRevisions (db.revisions.filter p) = sortedRevisions (db'.revisions.filter p') := by
  refine eq_of_sorted (hc.pairwise_filter p) (hc'.pairwise_filter p') fun x => ?_
  simp only [mem_sortedRevisions, List.mem_filter]
  constructor
  · rintro ⟨r, ⟨hr, hp⟩, rfl⟩
    have hid := hvault r hr hp
    exact ⟨r, ⟨(h.revisions r hid).mp hr, hsame r hr hid ▸ hp⟩, rfl⟩
  · rintro ⟨r, ⟨hr, hp⟩, rfl⟩
    have hid := hvault' r hr hp
    have hr := (h.revisions r hid).mpr hr
    exact ⟨r, ⟨hr, (hsame r hr hid).symm ▸ hp⟩, rfl⟩

theorem any_revisions (h : Agree tokenHash vault db db') {p p' : RevisionRow → Bool}
    (hvault : ∀ r ∈ db.revisions, p r = true → r.vaultId = vault)
    (hvault' : ∀ r ∈ db'.revisions, p' r = true → r.vaultId = vault)
    (hsame : ∀ r ∈ db.revisions, r.vaultId = vault → p r = p' r) :
    db.revisions.any p = db'.revisions.any p' := by
  rw [Bool.eq_iff_iff, List.any_eq_true, List.any_eq_true]
  constructor
  · rintro ⟨r, hr, hp⟩
    have hid := hvault r hr hp
    exact ⟨r, (h.revisions r hid).mp hr, hsame r hr hid ▸ hp⟩
  · rintro ⟨r, hr, hp⟩
    have hid := hvault' r hr hp
    have hr := (h.revisions r hid).mpr hr
    exact ⟨r, hr, (hsame r hr hid).symm ▸ hp⟩

/-- A `uid` finds a revision of the vault in both or in neither. -/
theorem revision?_eq_some (h : Agree tokenHash vault db db') (hc' : Constraints db') {uid : Int}
    {r : RevisionRow} (hid : r.vaultId = vault) (hr : db.revision? uid = some r) :
    db'.revision? uid = some r := by
  have huid : r.uid = uid := by simpa using List.find?_some hr
  rw [← huid]
  exact find_key_of_mem hc'.revisionUid ((h.revisions r hid).mp (List.mem_of_find?_eq_some hr))

theorem content?_eq (h : Agree tokenHash vault db db') (hc' : Constraints db') {r : RevisionRow}
    (hr : r ∈ db.revisions) (hid : r.vaultId = vault) : db.content? r.uid = db'.content? r.uid := by
  refine find?_eq_of_unique
    (fun c => and_congr_left fun hc => h.contents r hr hid c (of_decide_eq_true hc)) ?_
  intro c hmem d hd hcu hdu
  exact List.inj_on_of_nodup_map hc'.contentUid hmem hd
    ((of_decide_eq_true hcu).trans (of_decide_eq_true hdu).symm)

/-- Heads of the vault's rows, all of them or those up to a version. -/
theorem heads_iff (h : Agree tokenHash vault db db') {q : RevisionRow → Bool}
    (hq : ∀ r, q r = true → r.vaultId = vault) (uid : Int) :
    uid ∈ groupMax (·.path) (·.uid) (db.revisions.filter q) ↔
      uid ∈ groupMax (·.path) (·.uid) (db'.revisions.filter q) := by
  have hmem : ∀ r, r ∈ db.revisions.filter q ↔ r ∈ db'.revisions.filter q := fun r => by
    rw [List.mem_filter, List.mem_filter]
    exact and_congr_left fun hsel => h.revisions r (hq r hsel)
  simp only [mem_groupMax, hmem]

theorem headUids_iff (h : Agree tokenHash vault db db') (uid : Int) :
    uid ∈ db.headUids vault ↔ uid ∈ db'.headUids vault :=
  h.heads_iff (fun _ hr => of_decide_eq_true hr) uid

theorem headUidsThrough_iff (h : Agree tokenHash vault db db') (through uid : Int) :
    uid ∈ db.headUidsThrough vault through ↔ uid ∈ db'.headUidsThrough vault through :=
  h.heads_iff (fun _ hr => of_decide_eq_true (Bool.and_eq_true_iff.mp hr).1) uid

end Agree

/-- A row that a join on the heads' `uid`s finds is one of the rows that the heads are of. -/
theorem vaultId_of_head {db : Database} (hc : Constraints db) {q : RevisionRow → Bool}
    {vault : String} (hq : ∀ r, q r = true → r.vaultId = vault) {r : RevisionRow}
    (hr : r ∈ db.revisions)
    (hhead : r.uid ∈ groupMax (·.path) (·.uid) (db.revisions.filter q)) : r.vaultId = vault := by
  obtain ⟨s, hs, huid, -⟩ := mem_groupMax.mp hhead
  obtain ⟨hs, hsel⟩ := List.mem_filter.mp hs
  rw [← hc.eq_of_revisionUid hs hr huid]
  exact hq s hsel

namespace Agree

variable {tokenHash vault : String} {db db' : Database}

/-! ## Pages -/

theorem currentVersion_eq (h : Agree tokenHash vault db db') (hc' : Constraints db') :
    db.currentVersion vault = db'.currentVersion vault := by
  unfold Database.currentVersion
  rw [h.vault?_eq hc']

theorem listChangesPage_eq (h : Agree tokenHash vault db db') (hc : Constraints db)
    (hc' : Constraints db') (after through limit : Int) :
    db.listChangesPage vault after through limit =
      db'.listChangesPage vault after through limit := by
  have hvault : ∀ r : RevisionRow,
      (r.vaultId = vault && r.uid > after && r.uid ≤ through) = true → r.vaultId = vault := by
    intro r hsel
    simp only [Bool.and_eq_true, decide_eq_true_eq] at hsel
    exact hsel.1.1
  unfold Database.listChangesPage
  rw [pageByUid_eq, pageByUid_eq,
    h.sortedRevisions_eq hc hc' (fun r _ => hvault r) (fun r _ => hvault r) fun _ _ _ => rfl]

theorem initialSnapshotPage_eq (h : Agree tokenHash vault db db') (hc : Constraints db)
    (hc' : Constraints db') (after through limit : Int) :
    db.initialSnapshotPage vault after through limit =
      db'.initialSnapshotPage vault after through limit := by
  have hvault : ∀ {db : Database}, Constraints db → ∀ r ∈ db.revisions,
      (r.uid ∈ db.headUidsThrough vault through && !r.deleted && r.uid > after) = true →
      r.vaultId = vault := by
    intro db hc r hr hsel
    simp only [Bool.and_eq_true, decide_eq_true_eq] at hsel
    refine vaultId_of_head hc (fun s hs => ?_) hr hsel.1.1
    exact of_decide_eq_true (Bool.and_eq_true_iff.mp hs).1
  unfold Database.initialSnapshotPage
  rw [pageByUid_eq, pageByUid_eq, h.sortedRevisions_eq hc hc' (hvault hc) (hvault hc')]
  intro r _ _
  simp only [h.headUidsThrough_iff]

theorem listedAsDeleted_eq (h : Agree tokenHash vault db db') (hc : Constraints db)
    (hc' : Constraints db') (suppress : Bool) {r : RevisionRow} (hid : r.vaultId = vault) :
    db.listedAsDeleted vault suppress r = db'.listedAsDeleted vault suppress r := by
  have hprior : ∀ p : RevisionRow, (p.vaultId = r.vaultId && p.path = r.path &&
      p.uid < r.uid && !p.deleted) = true → p.vaultId = vault := by
    intro p hp
    simp only [Bool.and_eq_true, decide_eq_true_eq] at hp
    exact hp.1.1.1.trans hid
  have hlive : ∀ {db : Database}, Constraints db → ∀ l ∈ db.revisions,
      (l.uid ∈ db.headUids r.vaultId && !l.deleted && l.relatedpath = some r.path) = true →
      l.vaultId = vault := by
    intro db hc l hl hsel
    simp only [Bool.and_eq_true, decide_eq_true_eq] at hsel
    rw [← hid]
    exact vaultId_of_head hc (fun s hs => of_decide_eq_true hs) hl hsel.1.1
  unfold Database.listedAsDeleted
  congr 1
  · congr 1
    · simp only [h.headUids_iff]
    · exact h.any_revisions (fun p _ => hprior p) (fun p _ => hprior p) fun _ _ _ => rfl
  · congr 2
    refine h.any_revisions (hlive hc) (hlive hc') fun l _ _ => ?_
    rw [hid]
    simp only [h.headUids_iff]

theorem listDeletedPage_eq (h : Agree tokenHash vault db db') (hc : Constraints db)
    (hc' : Constraints db') (suppress : Bool) (after limit : Int) :
    db.listDeletedPage vault suppress after limit =
      db'.listDeletedPage vault suppress after limit := by
  have hvault : ∀ {db : Database}, Constraints db → ∀ r ∈ db.revisions,
      (db.listedAsDeleted vault suppress r && r.uid > max after 0) = true →
      r.vaultId = vault := by
    intro db hc r hr hsel
    simp only [Database.listedAsDeleted, Bool.and_eq_true, decide_eq_true_eq] at hsel
    exact vaultId_of_head hc (fun s hs => of_decide_eq_true hs) hr hsel.1.1.1.1
  unfold Database.listDeletedPage
  rw [pageByUid_eq, pageByUid_eq, h.sortedRevisions_eq hc hc' (hvault hc) (hvault hc')]
  intro r _ hid
  rw [h.listedAsDeleted_eq hc hc' suppress hid]

theorem historyPage_eq (h : Agree tokenHash vault db db') (hc : Constraints db)
    (hc' : Constraints db') (path : String) (last : Option Int) (limit : Int) :
    db.historyPage vault path last limit = db'.historyPage vault path last limit := by
  have hvault : ∀ r : RevisionRow,
      (r.vaultId = vault && r.path = path && last.all (r.uid < ·)) = true → r.vaultId = vault := by
    intro r hsel
    simp only [Bool.and_eq_true, decide_eq_true_eq] at hsel
    exact hsel.1.1
  unfold Database.historyPage
  rw [h.sortedRevisions_eq hc hc' (fun r _ => hvault r) (fun r _ => hvault r) fun _ _ _ => rfl]

/-! ## One revision -/

theorem pullInfo_eq_some (h : Agree tokenHash vault db db') (hc' : Constraints db') {uid : Int}
    {info : PullInfo} (hid : info.vaultId = vault) (hinfo : db.pullInfo uid = some info) :
    db'.pullInfo uid = some info := by
  unfold Database.pullInfo at hinfo ⊢
  obtain ⟨r, hr, rfl⟩ := Option.map_eq_some_iff.mp hinfo
  rw [h.revision?_eq_some hc' hid hr, Option.map_some,
    h.content?_eq hc' (List.mem_of_find?_eq_some hr) hid]

theorem contentChunk_eq (h : Agree tokenHash vault db db') (hc' : Constraints db') {uid : Int}
    {r : RevisionRow} (hid : r.vaultId = vault) (hr : db.revision? uid = some r)
    (offset length : Int) :
    db.contentChunk uid offset length = db'.contentChunk uid offset length := by
  have huid : r.uid = uid := by simpa using List.find?_some hr
  have hcontent : db.content? uid = db'.content? uid :=
    huid ▸ h.content?_eq hc' (List.mem_of_find?_eq_some hr) hid
  unfold Database.contentChunk
  rw [hr, h.revision?_eq_some hc' hid hr, hcontent]

/-! ## The session -/

theorem activeUser_eq (h : Agree tokenHash vault db db') {s : SessionRow} (hs : s ∈ db.sessions)
    (ht : s.tokenHash = tokenHash) : db.activeUser s.userId = db'.activeUser s.userId := by
  rw [Bool.eq_iff_iff, activeUser_iff, activeUser_iff]
  refine exists_congr fun u => ?_
  constructor
  · rintro ⟨hu, hid, hactive⟩
    exact ⟨(h.users s hs ht u hid).mp hu, hid, hactive⟩
  · rintro ⟨hu, hid, hactive⟩
    exact ⟨(h.users s hs ht u hid).mpr hu, hid, hactive⟩

theorem related_iff (h : Agree tokenHash vault db db') {s : SessionRow} (hs : s ∈ db.sessions)
    (ht : s.tokenHash = tokenHash) : Related db s.userId vault ↔ Related db' s.userId vault := by
  rw [Blackglass.related_iff, Blackglass.related_iff]
  have hmember : (∃ m ∈ db.memberships, m.vaultId = vault ∧ m.userId = s.userId ∧
      m.active = true) ↔ ∃ m ∈ db'.memberships, m.vaultId = vault ∧ m.userId = s.userId ∧
      m.active = true :=
    exists_congr fun m => and_congr_left fun hm => h.memberships s hs ht m hm.1 hm.2.1
  rw [hmember]
  exact exists_congr fun v => and_congr_left fun hv => h.vaults v hv.1

theorem hasAccess_iff (h : Agree tokenHash vault db db') (now : Int) :
    HasAccess db tokenHash vault now ↔ HasAccess db' tokenHash vault now := by
  unfold HasAccess
  constructor
  · rintro ⟨s, hs, ht, hlive, hactive, hrelated⟩
    exact ⟨s, (h.sessions s ht).mp hs, ht, hlive, h.activeUser_eq hs ht ▸ hactive,
      (h.related_iff hs ht).mp hrelated⟩
  · rintro ⟨s, hs, ht, hlive, hactive, hrelated⟩
    have hs := (h.sessions s ht).mpr hs
    exact ⟨s, hs, ht, hlive, (h.activeUser_eq hs ht).symm ▸ hactive,
      (h.related_iff hs ht).mpr hrelated⟩

theorem validSessionForVault_eq (h : Agree tokenHash vault db db') (now : Int) :
    db.validSessionForVault tokenHash vault now = db'.validSessionForVault tokenHash vault now := by
  rw [Bool.eq_iff_iff, validSessionForVault_eq_true, validSessionForVault_eq_true,
    h.hasAccess_iff]

theorem authContextHash_eq (h : Agree tokenHash vault db db') (hc : Constraints db)
    (hc' : Constraints db') (now : Int) :
    db.authContextHash tokenHash now = db'.authContextHash tokenHash now := by
  have hrow : db.authenticated tokenHash now = db'.authenticated tokenHash now := by
    refine Option.ext fun ⟨s, u⟩ => ?_
    rw [authenticated_eq_some_iff hc, authenticated_eq_some_iff hc']
    constructor
    · rintro ⟨hs, ht, hlive, hu, hid, hactive⟩
      exact ⟨(h.sessions s ht).mp hs, ht, hlive, (h.users s hs ht u hid).mp hu, hid, hactive⟩
    · rintro ⟨hs, ht, hlive, hu, hid, hactive⟩
      have hs := (h.sessions s ht).mpr hs
      exact ⟨hs, ht, hlive, (h.users s hs ht u hid).mpr hu, hid, hactive⟩
  unfold Database.authContextHash
  rw [hrow]

theorem activeMembership_eq (h : Agree tokenHash vault db db') (hc' : Constraints db')
    {s : SessionRow} (hs : s ∈ db.sessions) (ht : s.tokenHash = tokenHash) :
    db.activeMembership vault s.userId = db'.activeMembership vault s.userId := by
  refine find?_eq_of_unique (fun m => and_congr_left fun hm => ?_) fun m hm n hn hpm hpn => ?_
  · simp only [Bool.and_eq_true, decide_eq_true_eq] at hm
    exact h.memberships s hs ht m hm.1.1 hm.1.2
  · -- the unique index on active memberships
    simp only [Bool.and_eq_true, decide_eq_true_eq] at hpm hpn
    refine List.inj_on_of_nodup_map hc'.membershipActive (List.mem_filter.mpr ⟨hm, hpm.2⟩)
      (List.mem_filter.mpr ⟨hn, hpn.2⟩) ?_
    rw [hpm.1.1, hpm.1.2, hpn.1.1, hpn.1.2]

theorem findAuthorizedVault_eq (h : Agree tokenHash vault db db') (hc' : Constraints db')
    {s : SessionRow} (hs : s ∈ db.sessions) (ht : s.tokenHash = tokenHash) :
    db.findAuthorizedVault s.userId vault = db'.findAuthorizedVault s.userId vault := by
  have haccess : db.vaultAccess s.userId vault = db'.vaultAccess s.userId vault := by
    unfold Database.vaultAccess
    rw [← h.vault?_eq hc']
    cases hv : db.vault? vault with
    | none => rfl
    | some v =>
      simp only [(mem_of_vault? hv).2, h.activeMembership_eq hc' hs ht]
  unfold Database.findAuthorizedVault
  rw [haccess, h.vault?_eq hc']

theorem vaultAuthorization_eq (h : Agree tokenHash vault db db') {s : SessionRow}
    (hs : s ∈ db.sessions) (ht : s.tokenHash = tokenHash) :
    db.vaultAuthorization vault s = db'.vaultAuthorization vault s := by
  rw [Bool.eq_iff_iff, vaultAuthorization_iff, vaultAuthorization_iff, h.activeUser_eq hs ht,
    h.related_iff hs ht]

theorem authorizedExpiry_eq (h : Agree tokenHash vault db db') (hc' : Constraints db')
    (now : Int) : db.authorizedExpiry tokenHash vault now =
      db'.authorizedExpiry tokenHash vault now := by
  have hsame : ∀ s, (s ∈ db.sessions ∧
      (s.tokenHash = tokenHash && s.live now && db.vaultAuthorization vault s) = true) ↔
      (s ∈ db'.sessions ∧
        (s.tokenHash = tokenHash && s.live now && db'.vaultAuthorization vault s) = true) := by
    intro s
    by_cases ht : s.tokenHash = tokenHash
    · rw [← h.sessions s ht]
      exact and_congr_right fun hs => by rw [h.vaultAuthorization_eq hs ht]
    · simp [ht]
  unfold Database.authorizedExpiry
  congr 1
  refine find?_eq_of_unique hsame fun s hs r hr hps hpr => ?_
  simp only [Bool.and_eq_true, decide_eq_true_eq] at hps hpr
  exact List.inj_on_of_nodup_map hc'.sessionToken hs hr (hps.1.1.trans hpr.1.1.symm)

/-- A renewal does the same to the token's session in both. -/
theorem mem_renewSession (h : Agree tokenHash vault db db') (ttlSecs now : Int) {s : SessionRow}
    (ht : s.tokenHash = tokenHash)
    (hs : s ∈ (db.renewSession tokenHash ttlSecs now (db.vaultAuthorization vault)).sessions) :
    s ∈ (db'.renewSession tokenHash ttlSecs now (db'.vaultAuthorization vault)).sessions := by
  obtain ⟨r, hr, rfl⟩ := List.mem_map.mp hs
  have hrt : r.tokenHash = tokenHash := by
    rw [← ht]
    split <;> rfl
  refine List.mem_map.mpr ⟨r, (h.sessions r hrt).mp hr, ?_⟩
  unfold Database.renewable
  rw [h.vaultAuthorization_eq hr hrt]

theorem renewSession (h : Agree tokenHash vault db db') (ttlSecs now : Int) :
    Agree tokenHash vault
      (db.renewSession tokenHash ttlSecs now (db.vaultAuthorization vault))
      (db'.renewSession tokenHash ttlSecs now (db'.vaultAuthorization vault)) := by
  have hold : ∀ s ∈ (db.renewSession tokenHash ttlSecs now (db.vaultAuthorization vault)).sessions,
      ∃ r ∈ db.sessions, r.tokenHash = s.tokenHash ∧ r.userId = s.userId := by
    intro s hs
    obtain ⟨r, hr, rfl⟩ := List.mem_map.mp hs
    exact ⟨r, hr, by split <;> rfl, by split <;> rfl⟩
  exact {
    vaults := h.vaults
    revisions := h.revisions
    contents := h.contents
    sessions := fun s ht =>
      ⟨h.mem_renewSession ttlSecs now ht, h.symm.mem_renewSession ttlSecs now ht⟩
    users := fun s hs ht u hu => by
      obtain ⟨r, hr, hrt, hru⟩ := hold s hs
      exact h.users r hr (hrt.trans ht) u (hu.trans hru.symm)
    memberships := fun s hs ht m hm hu => by
      obtain ⟨r, hr, hrt, hru⟩ := hold s hs
      exact h.memberships r hr (hrt.trans ht) m hm (hu.trans hru.symm) }

theorem renewSessionForVault (h : Agree tokenHash vault db db') (hc' : Constraints db')
    (ttlSecs now : Int) :
    (db.renewSessionForVault tokenHash vault ttlSecs now).1.isSome =
        (db'.renewSessionForVault tokenHash vault ttlSecs now).1.isSome ∧
      Agree tokenHash vault (db.renewSessionForVault tokenHash vault ttlSecs now).2
        (db'.renewSessionForVault tokenHash vault ttlSecs now).2 := by
  unfold Database.renewSessionForVault
  rw [← h.authorizedExpiry_eq hc' now]
  split
  · exact ⟨rfl, h⟩
  · cases db.authorizedExpiry tokenHash vault now with
    | none => exact ⟨rfl, h⟩
    | some expiry =>
      simp only
      split
      · exact ⟨rfl, h⟩
      · have hrenewed := h.renewSession ttlSecs now
        refine ⟨?_, hrenewed⟩
        rw [Option.isSome_map, Option.isSome_map,
          hrenewed.authorizedExpiry_eq (hc'.renewSession _ _ _ _) now]

theorem authorizeMutation (h : Agree tokenHash vault db db') (hc : Constraints db)
    (hc' : Constraints db') {userId now : Int}
    (hok : db.authorizeMutation (some tokenHash) userId vault now = .ok ()) :
    db'.authorizeMutation (some tokenHash) userId vault now = .ok () := by
  simp only [authorizeMutation_ok, Option.some.injEq, exists_eq_left', vaultAccess_isSome_iff hc]
    at hok
  simp only [authorizeMutation_ok, Option.some.injEq, exists_eq_left', vaultAccess_isSome_iff hc']
  obtain ⟨⟨⟨s, hs, ht, rfl, hexp, hrev⟩, hactive⟩, hrelated⟩ := hok
  have hactive' := h.activeUser_eq hs ht ▸ activeUser_iff.mpr hactive
  exact ⟨⟨⟨s, (h.sessions s ht).mp hs, ht, rfl, hexp, hrev⟩, activeUser_iff.mp hactive'⟩,
    (h.related_iff hs ht).mp hrelated⟩

end Agree

end Blackglass
