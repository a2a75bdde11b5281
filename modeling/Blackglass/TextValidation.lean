import Blackglass.Handlers
import Blackglass.Verify

/-!
# Two validators of text

The handlers check text by its UTF-8 bytes, the verifier by what `length` of SQLite counts.
For upper bounds the bytes are the stricter measure.  For lower bounds they are not: a
string that begins with NUL is not empty for the handlers and empty for SQLite, so it is
stored and the database is rejected from then on.  This file shows that nothing else can
go wrong: after every accepted call the verifier's text predicates hold exactly if none of
the strings it wrote into a column that must not be empty begins with NUL.
-/

namespace Blackglass

open Rows Outcome Text Json

/-! ## The verifier's text predicates -/

/-- What `verify_logical_invariants` asks of the text columns that clients can write. -/
structure TextAccepted (db : Database) : Prop where
  name : ∀ v ∈ db.vaults, between 1 256 (sqlLength v.name)
  credentials : ∀ v ∈ db.vaults, v.CredentialsValid
  revision : ∀ r ∈ db.revisions, r.TextValid

theorem LogicalInvariants.textAccepted {phc : PhcParser} {db : Database}
    {externalContent multiUser : Bool} {now : Int}
    (h : LogicalInvariants phc db externalContent multiUser now) : TextAccepted db :=
  ⟨fun v hv => (h.vaultFields v hv).2.1, h.credentials, fun r hr => (h.revision r hr).2.2.1⟩

section

variable {db : Database}

/-- Fewer rows are accepted if the rows are. -/
theorem TextAccepted.of_subset {db' : Database} (h : TextAccepted db)
    (hvaults : db'.vaults ⊆ db.vaults) (hrevisions : db'.revisions ⊆ db.revisions) :
    TextAccepted db' :=
  ⟨fun v hv => h.name v (hvaults hv), fun v hv => h.credentials v (hvaults hv),
    fun r hr => h.revision r (hrevisions hr)⟩

theorem textAccepted_withVault {row : VaultRow} :
    TextAccepted (db.withVault row) ↔
      TextAccepted db ∧ between 1 256 (sqlLength row.name) ∧ row.CredentialsValid := by
  constructor
  · intro h
    have hrow : row ∈ (db.withVault row).vaults := List.mem_append_right _ (by simp)
    exact ⟨h.of_subset (List.subset_append_left _ _) (List.Subset.refl _), h.name row hrow,
      h.credentials row hrow⟩
  · rintro ⟨h, hname, hcredentials⟩
    refine ⟨fun v hv => ?_, fun v hv => ?_, h.revision⟩
    · rcases List.mem_append.mp hv with hv | hv
      · exact h.name v hv
      · rwa [List.mem_singleton.mp hv]
    · rcases List.mem_append.mp hv with hv | hv
      · exact h.credentials v hv
      · rwa [List.mem_singleton.mp hv]

theorem textAccepted_mapVaults {f : VaultRow → VaultRow} :
    TextAccepted (db.mapVaults f) ↔
      (∀ v ∈ db.vaults, between 1 256 (sqlLength (f v).name)) ∧
        (∀ v ∈ db.vaults, (f v).CredentialsValid) ∧ ∀ r ∈ db.revisions, r.TextValid := by
  constructor
  · intro h
    exact ⟨fun v hv => h.name _ (List.mem_map_of_mem hv),
      fun v hv => h.credentials _ (List.mem_map_of_mem hv), h.revision⟩
  · rintro ⟨hname, hcredentials, hrevision⟩
    refine ⟨fun v hv => ?_, fun v hv => ?_, hrevision⟩
    · obtain ⟨w, hw, rfl⟩ := List.mem_map.mp hv
      exact hname w hw
    · obtain ⟨w, hw, rfl⟩ := List.mem_map.mp hv
      exact hcredentials w hw

/-- An update of some vaults whose new text is acceptable on one condition. -/
theorem textAccepted_update {p : VaultRow → Bool} {f : VaultRow → VaultRow} {q : Prop}
    (h : TextAccepted db) (hf : ∀ v ∈ db.vaults, p v = true →
      ((between 1 256 (sqlLength (f v).name) ∧ (f v).CredentialsValid) ↔ q)) :
    TextAccepted (db.mapVaults fun v => if p v then f v else v) ↔ (db.vaults.any p = true → q) := by
  rw [textAccepted_mapVaults, List.any_eq_true]
  constructor
  · rintro ⟨hname, hcredentials, -⟩ ⟨v, hv, hp⟩
    have hn := hname v hv
    have hcred := hcredentials v hv
    rw [if_pos hp] at hn hcred
    exact (hf v hv hp).mp ⟨hn, hcred⟩
  · intro hq
    have hall : ∀ v ∈ db.vaults, between 1 256 (sqlLength (if p v then f v else v).name) ∧
        (if p v then f v else v).CredentialsValid := by
      intro v hv
      by_cases hp : p v = true
      · rw [if_pos hp]
        exact (hf v hv hp).mpr (hq ⟨v, hv, hp⟩)
      · rw [if_neg hp]
        exact ⟨h.name v hv, h.credentials v hv⟩
    exact ⟨fun v hv => (hall v hv).1, fun v hv => (hall v hv).2, h.revision⟩

/-- Sizes and versions are not text. -/
theorem textAccepted_refreshVault {id : String} {version : Int} :
    TextAccepted (db.refreshVault id version) ↔ TextAccepted db := by
  have hname : ∀ v : VaultRow, (if v.id = id then
      { v with size := db.vaultSize id, version := version } else v).name = v.name := by
    intro v
    split <;> rfl
  have hcredentials : ∀ v : VaultRow, (if v.id = id then
      { v with size := db.vaultSize id, version := version } else v).CredentialsValid ↔
        v.CredentialsValid := by
    intro v
    split <;> rfl
  rw [Database.refreshVault, textAccepted_mapVaults]
  simp only [hname, hcredentials]
  constructor
  · rintro ⟨h₁, h₂, h₃⟩
    exact ⟨h₁, h₂, h₃⟩
  · rintro ⟨h₁, h₂, h₃⟩
    exact ⟨h₁, h₂, h₃⟩

theorem textAccepted_commitRevision {row : RevisionRow} {content : Option Blob} :
    TextAccepted (db.commitRevision row content) ↔ TextAccepted db ∧ row.TextValid := by
  have hrows : ∀ stored : Database, stored.vaults = db.vaults →
      stored.revisions = db.revisions ++ [{ row with uid := db.nextRevisionUid }] →
      (TextAccepted stored ↔ TextAccepted db ∧ row.TextValid) := by
    intro stored hvaults hrevisions
    constructor
    · intro h
      refine ⟨h.of_subset (by rw [hvaults]; exact List.Subset.refl _)
        (by rw [hrevisions]; exact List.subset_append_left _ _), ?_⟩
      exact h.revision { row with uid := db.nextRevisionUid } (by simp [hrevisions])
    · rintro ⟨h, hrow⟩
      refine ⟨by rw [hvaults]; exact h.name, by rw [hvaults]; exact h.credentials, ?_⟩
      intro r hr
      rw [hrevisions] at hr
      rcases List.mem_append.mp hr with hr | hr
      · exact h.revision r hr
      · rw [List.mem_singleton.mp hr]
        exact hrow
  cases content with
  | none => exact textAccepted_refreshVault.trans (hrows _ rfl rfl)
  | some bytes => exact textAccepted_refreshVault.trans (hrows _ rfl rfl)

end

/-! ## What the handlers let pass -/

/-- Credentials of a new vault: a client's own, or the server's random ones. -/
inductive VaultCredentials.Checked : VaultCredentials → Prop where
  | custom {keyhash salt : String} (hkeyhash : Bounded 4096 keyhash) (hsalt : Bounded 4096 salt) :
      Checked { keyhash := some keyhash, salt := some salt, password := none }
  | managed (password : Vector UInt8 32) (salt : Vector UInt8 16) :
      Checked { keyhash := none, salt := some (hexEncode salt.toList),
                password := some (hexEncode password.toList) }

theorem vaultCredentials_ok {fresh : Fresh} {keyhash salt : Option String} {c : VaultCredentials}
    (h : vaultCredentials fresh keyhash salt = .ok c) : c.Checked := by
  unfold vaultCredentials at h
  split at h
  · obtain rfl := Except.ok.inj h
    exact .managed _ _
  · split at h
    · rename_i hbounded
      obtain rfl := Except.ok.inj h
      exact .custom hbounded.1 hbounded.2
    · cases h
  · cases h

def Vault.credentials (vault : Vault) : VaultCredentials :=
  { keyhash := vault.keyhash, salt := vault.salt, password := vault.password }

/-- The credentials that came from a client. -/
def Vault.customTexts (vault : Vault) : List String :=
  if vault.password.isSome then [] else vault.keyhash.toList ++ vault.salt.toList

def NewRevision.BoundedText (r : NewRevision) : Prop :=
  Bounded 16384 r.path ∧ (∀ p ∈ r.relatedpath, p.utf8ByteSize ≤ 16384) ∧
    r.extension.utf8ByteSize ≤ 256 ∧ r.hash.utf8ByteSize ≤ 4096 ∧ Bounded 256 r.device

namespace Request

/-- The bounds in bytes that the handlers have checked; the name of a migrated vault was
taken from the database. -/
def BoundedText : Request → Prop
  | createVault _ _ vault => Bounded 256 vault.name ∧ vault.credentials.Checked
  | bindManagedKeyhash _ _ _ keyhash => Bounded 4096 keyhash
  | renameVault _ _ _ name => Bounded 256 name
  | migrateVault _ _ _ replacement =>
    between 1 256 (sqlLength replacement.name) ∧ replacement.credentials.Checked
  | addEmptyRevision revision .. | addFileRevision revision .. => revision.BoundedText
  | restore _ _ _ _ device .. => Bounded 256 device
  | deleteVault .. | inviteCollaborator .. | removeCollaborator .. | purge .. => True

/-- The strings of a client that a request writes, given the database it finds, into columns
that the verifier does not allow to be empty. -/
def writtenTexts (db : Database) : Request → List String
  | createVault _ _ vault => vault.name :: vault.customTexts
  | bindManagedKeyhash userId _ id keyhash =>
    if db.vaults.any fun v =>
      v.id = id && v.ownerUserId = userId && v.password.isSome && v.keyhash.isNone
    then [keyhash] else []
  | renameVault userId _ id name => if db.ownsVault userId id then [name] else []
  | migrateVault userId _ sourceId replacement =>
    if db.ownsVault userId sourceId then replacement.customTexts else []
  | addEmptyRevision revision .. | addFileRevision revision .. => [revision.path, revision.device]
  | restore _ _ vault uid device .. => if db.restorable vault uid then [device] else []
  | deleteVault .. | inviteCollaborator .. | removeCollaborator .. | purge .. => []

end Request

theorem vaultName_eq_some {name : Option String} {trimmed : String}
    (h : vaultName name = some trimmed) : Bounded 256 trimmed := by
  rw [vaultName, Option.filter_eq_some_iff] at h
  simpa using h.2

theorem bounded_eq_some {v w : String} {max : Nat} (h : bounded v max = some w) :
    Bounded max w := by
  unfold bounded at h
  split at h
  · obtain rfl := Option.some.inj h
    assumption
  · cases h

theorem pushRelatedpath_eq_some {v : Value} {relatedpath : Option String}
    (h : pushRelatedpath v = some relatedpath) : ∀ p ∈ relatedpath, p.utf8ByteSize ≤ 16384 := by
  unfold pushRelatedpath at h
  split at h
  · obtain rfl := Option.some.inj h
    simp
  · obtain rfl := Option.some.inj h
    simp
  · split at h
    · obtain rfl := Option.some.inj h
      simpa
    · cases h
  · cases h

/-- The metadata of a valid push is within the bounds in bytes. -/
theorem ValidPush.boundedText {config : Config} {session : Session} {v : Value} {r : NewRevision}
    (h : ValidPush config session v r) : r.BoundedText :=
  ⟨bounded_eq_some h.path, pushRelatedpath_eq_some h.relatedpath, h.extension, h.hash,
    h.device ▸ session.bounded_device⟩

theorem findOwnedVault_eq_some {db : Database} {userId : Int} {id : String} {v : VaultRow}
    (h : db.findOwnedVault userId id = some v) : v ∈ db.vaults :=
  List.mem_of_find?_eq_some h

/-- Every accepted call is within the bounds in bytes. -/
theorem boundedText_of_call {config : Config} {seen : Database} {call : Call} {request : Request}
    (hseen : TextAccepted seen) (h : call.request config seen = .ok (some request)) :
    request.BoundedText := by
  cases call with
  | createVault userId tokenHash fresh v =>
    simp only [Call.request, map_eq_ok, createVault, bind_eq_ok, orReject_eq_ok, pure_eq_ok,
      Option.some.injEq] at h
    obtain ⟨_, ⟨r, -, name, hname, version, -, credentials, hcredentials, rfl⟩, rfl⟩ := h
    exact ⟨vaultName_eq_some hname, vaultCredentials_ok hcredentials⟩
  | accessVault userId tokenHash v =>
    simp only [Call.request, accessVault, bind_eq_ok, orReject_eq_ok, rejectIf_eq_ok,
      exists_unit] at h
    obtain ⟨r, -, id, -, ⟨vault, access⟩, -, -, -, h⟩ := h
    split at h
    · simp only [bind_eq_ok, orReject_eq_ok, pure_eq_ok, Option.some.injEq,
        Option.filter_eq_some_iff, decide_eq_true_eq] at h
      obtain ⟨requested, ⟨-, hrequested⟩, rfl⟩ := h
      exact hrequested
    · simp only [bind_eq_ok, exists_unit, pure_eq_ok, reduceCtorEq, and_false] at h
  | migrateVault userId tokenHash fresh v =>
    simp only [Call.request, map_eq_ok, migrateVault, bind_eq_ok, orReject_eq_ok, rejectIf_eq_ok,
      exists_unit, pure_eq_ok, Option.some.injEq] at h
    obtain ⟨_, ⟨r, -, sourceId, -, -, credentials, hcredentials, source, hsource, -, rfl⟩,
      rfl⟩ := h
    exact ⟨hseen.name source (findOwnedVault_eq_some hsource), vaultCredentials_ok hcredentials⟩
  | renameVault userId tokenHash v =>
    simp only [Call.request, map_eq_ok, renameVault, bind_eq_ok, orReject_eq_ok, pure_eq_ok,
      Option.some.injEq] at h
    obtain ⟨_, ⟨r, -, id, -, name, hname, rfl⟩, rfl⟩ := h
    exact vaultName_eq_some hname
  | push session v file =>
    simp only [Call.request, bind_eq_ok, pure_eq_ok, Option.some.injEq] at h
    obtain ⟨revision, hpush, rfl⟩ := h
    have hbounded := (beginPush_ok hpush).2.1.boundedText
    unfold pushRequest
    split
    · exact hbounded
    · exact hbounded
  | restore session reservedGlobal reservedOwner v =>
    simp only [Call.request, map_eq_ok, restore, bind_eq_ok, orReject_eq_ok, pure_eq_ok,
      Option.some.injEq] at h
    obtain ⟨_, ⟨uid, -, rfl⟩, rfl⟩ := h
    exact session.bounded_device

/-! ## What a request stores -/

theorem credentialsValid_toRow_iff {vault : Vault} {userId : Int}
    (h : vault.credentials.Checked) :
    (vault.toRow userId).CredentialsValid ↔
      ∀ text ∈ vault.customTexts, startsWithNul text = false := by
  obtain ⟨id, name, keyhash, salt, host, region, encryptionVersion, size, created,
    password⟩ := vault
  cases h with
  | @custom keyhash salt hkeyhash hsalt =>
    have hvalid : (Vault.toRow ⟨id, name, some keyhash, some salt, host, region,
        encryptionVersion, size, created, none⟩ userId).CredentialsValid ↔
        between 1 4096 (sqlLength keyhash) ∧ between 1 4096 (sqlLength salt) := Iff.rfl
    have htexts : (Vault.customTexts ⟨id, name, some keyhash, some salt, host, region,
        encryptionVersion, size, created, none⟩) = [keyhash, salt] := rfl
    rw [hvalid, htexts, between, between]
    have hk := hkeyhash.sqlLength_iff
    have hs := hsalt.sqlLength_iff
    push_cast at hk hs
    rw [hk, hs]
    simp
  | managed password salt =>
    refine iff_of_true ?_ (fun text htext => absurd htext (List.not_mem_nil))
    refine ⟨?_, globOutside_hexEncode _, ?_, globOutside_hexEncode _, fun k hk => nomatch hk⟩
    · rw [sqlLength_hexEncode, Vector.length_toList]
      rfl
    · rw [sqlLength_hexEncode, Vector.length_toList]
      rfl

theorem credentialsValid_bind_iff {v : VaultRow} {keyhash : String} (h : v.CredentialsValid)
    (hpassword : v.password.isSome = true) :
    ({ v with keyhash := some keyhash } : VaultRow).CredentialsValid ↔
      between 1 4096 (sqlLength keyhash) := by
  obtain ⟨password, hp⟩ := Option.isSome_iff_exists.mp hpassword
  cases hs : v.salt with
  | none => simp [VaultRow.CredentialsValid, hp, hs] at h
  | some salt =>
    simp only [VaultRow.CredentialsValid, hp, hs] at h ⊢
    constructor
    · exact fun hk => hk.2.2.2.2 keyhash rfl
    · intro hk
      refine ⟨h.1, h.2.1, h.2.2.1, h.2.2.2.1, fun k hkey => ?_⟩
      rwa [← Option.some.inj hkey]

theorem textValid_toRow_iff {r : NewRevision} {content : Option Blob} {ts : Int}
    (h : r.BoundedText) :
    (r.toRow content ts).TextValid ↔ ∀ text ∈ [r.path, r.device], startsWithNul text = false := by
  obtain ⟨hpath, hrelated, hextension, hhash, hdevice⟩ := h
  have hp := hpath.sqlLength_iff
  have hd := hdevice.sqlLength_iff
  have hle := fun s => sqlLength_le_utf8ByteSize s
  push_cast at hp hd
  simp only [RevisionRow.TextValid, NewRevision.toRow, between, hp, hd, List.mem_cons,
    List.not_mem_nil, or_false, forall_eq_or_imp, forall_eq]
  constructor
  · exact fun hr => ⟨hr.1, hr.2.2.2.2⟩
  · rintro ⟨h₁, h₂⟩
    refine ⟨h₁, fun p hp => ?_, ?_, ?_, h₂⟩
    · have := hrelated p hp
      have := hle p
      omega
    · have := hle r.extension
      omega
    · have := hle r.hash
      omega

/-- A restore keeps the text of the revision it copies, under the device of the session. -/
theorem textValid_restored_iff {source target : RevisionRow} {device : String} {userId ts : Int}
    (hsource : source.TextValid) (htarget : target.TextValid) (hdevice : Bounded 256 device) :
    (source.restored target.path device userId ts).TextValid ↔ startsWithNul device = false := by
  have hd := hdevice.sqlLength_iff
  push_cast at hd
  simp only [RevisionRow.TextValid, RevisionRow.restored, between, hd]
  constructor
  · exact fun hr => hr.2.2.2.2
  · exact fun hr => ⟨htarget.1, fun p hp => (nomatch hp), hsource.2.2.1, hsource.2.2.2.1, hr⟩

theorem forall_mem_ite {c : Prop} [Decidable c] {text : String} {p : String → Prop} :
    (∀ s ∈ (if c then [text] else []), p s) ↔ (c → p text) := by
  split <;> simp_all

/-- A committed request leaves the text columns acceptable exactly if no string it wrote
where SQLite must count a character begins with NUL. -/
theorem textAccepted_iff_of_effect {db db' : Database} {t : Readings} {request : Request}
    {answer : Answer} (hc : Constraints db) (hdb : TextAccepted db) (hb : request.BoundedText)
    (h : Effect db t request answer db') :
    TextAccepted db' ↔ ∀ text ∈ request.writtenTexts db, startsWithNul text = false := by
  cases h with
  | createVault h =>
    rename_i userId tokenHash vault
    obtain ⟨-, -, -, rfl⟩ := createVaultInternal_ok h
    have hname : between 1 256 (sqlLength vault.name) ↔ _ := hb.1.sqlLength_iff
    rw [textAccepted_withVault, credentialsValid_toRow_iff hb.2]
    simp only [Vault.toRow, Request.writtenTexts, List.mem_cons, forall_eq_or_imp, hname, hdb,
      true_and]
  | bindManagedKeyhash h =>
    rename_i keyhash _
    obtain ⟨-, rfl⟩ := bindManagedKeyhashForSession_ok h
    have hkeyhash : between 1 4096 (sqlLength keyhash) ↔ _ := hb.sqlLength_iff
    rw [Request.writtenTexts, forall_mem_ite, ← hkeyhash]
    refine textAccepted_update hdb fun v hv hp => ?_
    simp only [Bool.and_eq_true] at hp
    rw [credentialsValid_bind_iff (hdb.credentials v hv) hp.1.2]
    exact and_iff_right (hdb.name v hv)
  | renameVault h =>
    rename_i name _
    obtain ⟨-, rfl⟩ := renameVaultForSession_ok h
    have hname : between 1 256 (sqlLength name) ↔ _ := hb.sqlLength_iff
    rw [Request.writtenTexts, forall_mem_ite, ← hname]
    exact textAccepted_update hdb fun v hv _ => and_iff_left (hdb.credentials v hv)
  | deleteVault h =>
    refine iff_of_true ?_ (by simp [Request.writtenTexts])
    obtain ⟨-, ⟨-, -, rfl⟩ | ⟨-, -, v, -, -, rfl⟩⟩ := deleteVaultInternal_ok h
    · exact hdb
    · exact hdb.of_subset List.filter_sublist.subset List.filter_sublist.subset
  | migrateVault h =>
    rename_i userId tokenHash sourceId replacement _
    obtain ⟨-, ⟨-, hnot, rfl⟩ | ⟨-, howns, hfresh, v, hv, hid, rfl⟩⟩ := migrateVaultInternal_ok h
    · simp [Request.writtenTexts, hnot, hdb]
    · have hcredentials : (replacement.toRow userId).CredentialsValid ↔ _ :=
        credentialsValid_toRow_iff hb.2
      rw [Request.writtenTexts, if_pos howns, ← hcredentials]
      constructor
      · -- the replacement is not the vault that goes
        intro haccepted
        refine haccepted.credentials _ (List.mem_filter.mpr
          ⟨List.mem_append_right _ List.mem_cons_self, ?_⟩)
        have hne : replacement.id ≠ sourceId :=
          fun heq => hasVault_eq_false_iff.mp hfresh v hv (hid.trans heq.symm)
        simp [Vault.toRow, hne]
      · intro hrow
        have hadded : TextAccepted (db.withVault (replacement.toRow userId)) :=
          textAccepted_withVault.mpr ⟨hdb, hb.1, hrow⟩
        exact hadded.of_subset List.filter_sublist.subset List.filter_sublist.subset
  | inviteCollaborator h =>
    refine iff_of_true ?_ (by simp [Request.writtenTexts])
    obtain ⟨-, -, ⟨-, -, -, -, -, rfl⟩ | ⟨-, -, -, -, -, -, -, -, -, rfl⟩⟩ :=
      inviteCollaboratorForSession_ok h
    · exact hdb
    · exact hdb.of_subset (List.Subset.refl _) (List.Subset.refl _)
  | removeCollaborator h =>
    refine iff_of_true ?_ (by simp [Request.writtenTexts])
    obtain ⟨-, ⟨-, rfl⟩ | ⟨-, -, -, -, -, -, -, -, -, -, rfl⟩⟩ :=
      removeCollaboratorForSession_ok h
    · exact hdb
    · exact hdb.of_subset (List.Subset.refl _) (List.Subset.refl _)
  | addEmptyRevision h =>
    obtain ⟨-, -, -, -, -, rfl⟩ := addEmptyRevisionInternal_ok h
    rw [textAccepted_commitRevision, textValid_toRow_iff hb]
    simp only [hdb, true_and, Request.writtenTexts]
  | addFileRevision h =>
    obtain ⟨-, -, -, -, -, -, -, -, rfl⟩ := addFileRevisionInternal_ok h
    rw [textAccepted_commitRevision, textValid_toRow_iff hb]
    simp only [hdb, true_and, Request.writtenTexts]
  | restore h =>
    obtain ⟨-, hnone, rfl⟩ | ⟨target, source, content, hr⟩ := restoreInternal_ok hc h
    · simp [Request.writtenTexts, hnone, hdb]
    · rw [hr.result, textAccepted_commitRevision, textValid_restored_iff
        (hdb.revision source hr.source_mem) (hdb.revision target hr.target_mem) hb]
      simp [Request.writtenTexts, hr.restorable, hdb]
  | purge h =>
    obtain ⟨-, -, row, -, rfl⟩ := purgeInternal_ok h
    rw [textAccepted_refreshVault]
    refine iff_of_true (hdb.of_subset (List.Subset.refl _) List.filter_sublist.subset) ?_
    simp [Request.writtenTexts]

/-- For every message of a client that is accepted and committed, the text columns stay
acceptable exactly if none of the strings it stored begins with NUL; if one does, the
server does not start on the database again. -/
theorem textAccepted_iff_of_call {config : Config} {seen : Database} {call : Call}
    {request : Request} {s : Store} {db' : Database} {t : Readings} {answer : Answer}
    (hseen : TextAccepted seen) (hdb : TextAccepted s.db)
    (hcall : call.request config seen = .ok (some request))
    (hcommit : request.execute s.db t = .ok (answer, db')) :
    (TextAccepted db' ↔ ∀ text ∈ request.writtenTexts s.db, startsWithNul text = false) ∧
      ∀ phc now, Database.verifyConnection phc db' now = .ok () →
        ∀ text ∈ request.writtenTexts s.db, startsWithNul text = false := by
  have hbounded := boundedText_of_call hseen hcall
  have hiff := textAccepted_iff_of_effect s.constraints hdb hbounded (execute_ok hcommit)
  exact ⟨hiff, fun phc now hverify =>
    hiff.mp (LogicalInvariants.of_verifyConnection hverify).textAccepted⟩

/-- Renaming a vault to a plain name keeps the text acceptable. -/
theorem textAccepted_of_plain_rename :
    let call := Call.renameVault 1 someTokenHash
      (.object [("vault_uid", .string "vault"), ("name", .string " Diary ")])
    let s : Store := ⟨personalServer, constraints_personalServer⟩
    ∃ db', (Request.renameVault 1 someTokenHash "vault" "Diary").execute s.db ⟨500, 500⟩ =
        .ok (.flag true, db') ∧
      call.request ⟨"h", 0, 0, 0, fun _ => true⟩ personalServer =
        .ok (some (.renameVault 1 someTokenHash "vault" "Diary")) ∧ TextAccepted db' := by
  intro call s
  have hstart : TextAccepted personalServer := by constructor <;> decide
  have hcall : call.request ⟨"h", 0, 0, 0, fun _ => true⟩ personalServer =
      .ok (some (.renameVault 1 someTokenHash "vault" "Diary")) := by rfl
  refine ⟨_, rfl, hcall, ?_⟩
  exact (textAccepted_iff_of_call (s := s) (t := ⟨500, 500⟩) hstart hstart hcall rfl).1.mpr
    (by decide)

/-- A vault name that begins with NUL is accepted and stored, and the database that the
server was running on is rejected afterwards. -/
theorem rename_to_nul_is_rejected :
    Database.verifyConnection onePhc personalServer 500 = .ok () ∧
      (Call.renameVault 1 someTokenHash
        (.object [("vault_uid", .string "vault"), ("name", .string "\x00Diary")])).request
          ⟨"h", 0, 0, 0, fun _ => true⟩ personalServer =
        .ok (some (.renameVault 1 someTokenHash "vault" "\x00Diary")) ∧
      ∃ db', (Request.renameVault 1 someTokenHash "vault" "\x00Diary").execute personalServer
          ⟨500, 500⟩ = .ok (.flag true, db') ∧
        Database.verifyConnection onePhc db' 500 = .error (.bail
          "database logical invariant failed (vault field types and ranges): vault") := by
  exact ⟨by decide +kernel, rfl, _, rfl, by decide +kernel⟩

end Blackglass
