import Blackglass.Accounts.SessionTable

/-!
# The user table under any clock

What `create_user`, registration and the operations `set_user_*` write passes the checks of
`verify_logical_invariants`, with one exception.  A session's `revoked_at` is
`MAX(now,created_at)`, but a user's `updated_at` is the bare reading, so a change made by
a clock that was set back behind the creation of the account leaves a row that the
verifier refuses.
-/

namespace Blackglass

open Outcome Rows Text Transition

/-! ## E-mail addresses -/

/-- A printable local part and domain, with the only `@` between them. -/
structure EmailShape (s : String) : Prop where
  graphic : ∀ c ∈ s.toList, isAsciiGraphic c = true
  parts : ∃ pre post, s.toList = pre ++ '@' :: post ∧ pre ≠ [] ∧ post ≠ [] ∧
    '@' ∉ pre ∧ '@' ∉ post

namespace EmailShape

variable {s : String}

theorem sqlLength_eq (h : EmailShape s) : sqlLength s = s.toList.length := by
  unfold sqlLength
  rw [sqlChars_of_graphic h.graphic]

theorem three_le (h : EmailShape s) : 3 ≤ sqlLength s := by
  obtain ⟨pre, post, hs, hpre, hpost, -⟩ := h.parts
  have h₁ := List.length_pos_iff.mpr hpre
  have h₂ := List.length_pos_iff.mpr hpost
  rw [h.sqlLength_eq, hs, List.length_append, List.length_cons]
  omega

theorem globOutside_eq (h : EmailShape s) : globOutside isAsciiGraphic s = false := by
  unfold globOutside
  rw [sqlChars_of_graphic h.graphic]
  simpa using h.graphic

theorem without_at (h : EmailShape s) : sqlLength s - sqlLength (sqlWithout '@' s) = 1 := by
  have hwithout : sqlLength (sqlWithout '@' s) = (s.toList.filter fun d => d ≠ '@').length := by
    unfold sqlLength
    rw [sqlChars_of_graphic]
    · simp [sqlWithout]
    · intro c hc
      simp only [sqlWithout, String.toList_ofList] at hc
      exact h.graphic c (List.mem_of_mem_filter hc)
  obtain ⟨pre, post, hs, -, -, hpre, hpost⟩ := h.parts
  have hkeep : ∀ cs : List Char, '@' ∉ cs → (cs.filter fun d => d ≠ '@') = cs := by
    intro cs hcs
    refine List.filter_eq_self.mpr fun c hc => ?_
    simpa using fun heq : c = '@' => hcs (heq ▸ hc)
  rw [hwithout, h.sqlLength_eq, hs, List.filter_append, List.filter_cons_of_neg (by simp),
    hkeep pre hpre, hkeep post hpost]
  simp only [List.length_append, List.length_cons]
  omega

theorem instr_at (h : EmailShape s) : sqlInstr '@' s ≠ 1 ∧ sqlInstr '@' s ≠ sqlLength s := by
  obtain ⟨pre, post, hs, hpre, hpost, hnot, -⟩ := h.parts
  have h₁ := List.length_pos_iff.mpr hpre
  have h₂ := List.length_pos_iff.mpr hpost
  have hinstr : sqlInstr '@' s = pre.length + 1 := by
    unfold sqlInstr
    rw [hs, if_pos (by simp), List.idxOf_append_of_notMem hnot, List.idxOf_cons_self]
    simp
  rw [hinstr, h.sqlLength_eq, hs, List.length_append, List.length_cons]
  omega

theorem lower (h : EmailShape s) : EmailShape (toAsciiLowercase s) := by
  have hat : ∀ cs : List Char, (∀ c ∈ cs, isAsciiGraphic c = true) → '@' ∉ cs →
      '@' ∉ cs.map Char.toLower := by
    intro cs hgraphic hcs hmem
    obtain ⟨c, hc, heq⟩ := List.mem_map.mp hmem
    exact hcs ((toLower_of_isAsciiGraphic (hgraphic c hc)).2.1.mp heq ▸ hc)
  obtain ⟨pre, post, hs, hpre, hpost, hnot, hnot'⟩ := h.parts
  refine ⟨fun c hc => ?_, pre.map Char.toLower, post.map Char.toLower, ?_, by simpa using hpre,
    by simpa using hpost, hat pre ?_ hnot, hat post ?_ hnot'⟩
  · simp only [toAsciiLowercase, String.toList_ofList] at hc
    obtain ⟨d, hd, rfl⟩ := List.mem_map.mp hc
    exact (toLower_of_isAsciiGraphic (h.graphic d hd)).1
  · simp only [toAsciiLowercase, String.toList_ofList, hs, List.map_append, List.map_cons]
    rfl
  · intro c hc
    exact h.graphic c (by simp [hs, hc])
  · intro c hc
    exact h.graphic c (by simp [hs, hc])

theorem lower_lower (h : EmailShape s) :
    toAsciiLowercase (toAsciiLowercase s) = toAsciiLowercase s := by
  simp only [toAsciiLowercase, String.toList_ofList, List.map_map]
  refine congrArg String.ofList (List.map_congr_left fun c hc => ?_)
  exact (toLower_of_isAsciiGraphic (h.graphic c hc)).2.2

theorem sqlLength_lower (h : EmailShape s) : sqlLength (toAsciiLowercase s) = sqlLength s := by
  rw [h.lower.sqlLength_eq, h.sqlLength_eq]
  simp [toAsciiLowercase]

end EmailShape

/-- What `canonicalize_email` accepts. -/
theorem canonicalizeEmail_ok {value : String} {e : CanonicalEmail}
    (h : canonicalizeEmail value = .ok e) :
    EmailShape e.display ∧ e.display.utf8ByteSize ≤ maxEmailBytes ∧
      e.canonical = toAsciiLowercase e.display := by
  simp only [canonicalizeEmail, bind_eq_ok, rejectIf_eq_ok, exists_unit, orReject_eq_ok, pure_eq_ok,
    not_or, not_not, not_lt, List.all_eq_true] at h
  obtain ⟨⟨-, hle⟩, hgraphic, i, hi, ⟨hpos, hend, hlater⟩, rfl⟩ := h
  refine ⟨⟨hgraphic, ?_⟩, hle, rfl⟩
  generalize (trimMatches isAsciiWhiteSpace value).toList = cs at hi hend hlater ⊢
  obtain ⟨hlt, hat, hfirst⟩ := List.idxOf?_eq_some_iff.mp hi
  refine ⟨cs.take i, cs.drop (i + 1), ?_, ?_, ?_, ?_, hlater⟩
  · rw [← hat, ← List.drop_eq_getElem_cons hlt, List.take_append_drop]
  · intro hnil
    have := congrArg List.length hnil
    rw [List.length_take, List.length_nil] at this
    omega
  · intro hnil
    have := congrArg List.length hnil
    rw [List.length_drop, List.length_nil] at this
    omega
  · intro hmem
    obtain ⟨j, hj, heq⟩ := List.getElem_of_mem hmem
    rw [List.length_take] at hj
    rw [List.getElem_take] at heq
    exact hfirst j (by omega) heq

theorem normalizeDisplayName_ok {value name : String}
    (h : normalizeDisplayName value = .ok name) :
    between 1 maxDisplayNameBytes (sqlByteLength name) := by
  simp only [normalizeDisplayName, bind_eq_ok, rejectIf_eq_ok, exists_unit, pure_eq_ok, not_or,
    not_lt] at h
  obtain ⟨⟨hpos, hle⟩, -, rfl⟩ := h
  unfold between sqlByteLength
  omega

theorem sqlLength_of_productionGrade {phc : PhcParser} {hash : String}
    (h : passwordHashIsProductionGrade phc hash = true) : between 1 512 (sqlLength hash) := by
  obtain ⟨parsed, hparsed⟩ := Option.isSome_iff_exists.mp h
  simp only [acceptedPasswordHash, Option.bind_eq_bind, Option.bind_eq_some_iff,
    Option.guard_eq_some'] at hparsed
  obtain ⟨-, hle, phash, hparse, -⟩ := hparsed
  have hhead := phc.head_of_parse hparse
  have hle' := sqlLength_le_utf8ByteSize hash
  refine ⟨sqlLength_pos_iff.mpr ⟨?_, ?_⟩, ?_⟩
  · rw [utf8ByteSize_eq_utf8Len, Ne, String.utf8Len_eq_zero]
    intro hnil
    rw [hnil] at hhead
    cases hhead
  · unfold startsWithNul
    rw [hhead]
    decide
  · unfold maxPasswordHashLength at hle
    omega

/-! ## The invariant -/

/-- The part of `verify_logical_invariants` that reads the user table and its sequence. -/
structure UsersAccepted (phc : PhcParser) (db : Database) : Prop where
  user : ∀ u ∈ db.users, u.Valid
  userCount : (db.users.length : Int) ≤ maxUsers
  passwordHash : ∀ u ∈ db.users, passwordHashIsProductionGrade phc u.passwordHash = true
  userSequence : db.sequenceRows "users" = 1
  userHighWater : ∀ seq ∈ db.sequence "users", maxOr0 (db.users.map (·.id)) ≤ seq
  sequenceSafe : ∀ seq ∈ db.sequence "users", safeFrom 0 seq

theorem mem_sequence {db : Database} {name : String} {seq : Int} (h : seq ∈ db.sequence name) :
    ∃ row ∈ db.sqliteSequence, row.name = some name ∧ row.seq = seq := by
  obtain ⟨row, hfind, rfl⟩ := Option.map_eq_some_iff.mp h
  exact ⟨row, List.mem_of_find?_eq_some hfind, by simpa using List.find?_some hfind, rfl⟩

theorem LogicalInvariants.usersAccepted {phc : PhcParser} {db : Database} {now : Int}
    {externalContent : Bool} (h : LogicalInvariants phc db externalContent true now) :
    UsersAccepted phc db := by
  refine ⟨h.user rfl, h.userCount rfl, h.passwordHash rfl, h.userSequence rfl,
    h.userHighWater rfl, fun seq hseq => ?_⟩
  obtain ⟨row, hrow, -, rfl⟩ := mem_sequence hseq
  exact (h.sequenceRow row hrow).2

/-- A row of a valid id and times, with texts that passed the checks. -/
theorem UserRow.valid_of_texts {u : UserRow} {e : CanonicalEmail}
    (hid : safeFrom 1 u.id) (hemail : EmailShape e.display)
    (hbytes : e.display.utf8ByteSize ≤ maxEmailBytes)
    (hcanonical : e.canonical = toAsciiLowercase e.display)
    (hdisplay : u.email = e.display) (hkey : u.emailCanonical = e.canonical)
    (hname : between 1 maxDisplayNameBytes (sqlByteLength u.name))
    (hhash : between 1 512 (sqlLength u.passwordHash)) (hcreated : safeFrom 0 u.createdAt)
    (hupdated : safeFrom u.createdAt u.updatedAt) : u.Valid := by
  have hlength : between 3 maxEmailBytes (sqlLength e.display) := by
    have := sqlLength_le_utf8ByteSize e.display
    exact ⟨hemail.three_le, by omega⟩
  have hlengthLower : between 3 maxEmailBytes (sqlLength (toAsciiLowercase e.display)) := by
    rw [hemail.sqlLength_lower]
    exact hlength
  have hlower := hemail.lower
  unfold UserRow.Valid
  rw [hkey, hdisplay, hcanonical]
  exact ⟨hid, hlengthLower, hlower.globOutside_eq, hlower.without_at,
    hlower.instr_at.1, hlower.instr_at.2, hemail.lower_lower.symm, hlength,
    hemail.globOutside_eq, rfl, hname, hhash, hcreated, hupdated⟩

/-- The times of a changed row are what decides whether it is still valid. -/
theorem UserChange.valid_apply_iff {phc : PhcParser} {db : Database} {userId now : Int}
    {change : UserChange} {u : UserRow} (hu : u.Valid)
    (hchange : change.Accepted phc db userId) (hnow : now ≤ maxJsSafeInteger) :
    (change.apply now u).Valid ↔ u.createdAt ≤ now := by
  constructor
  · rintro ⟨-, -, -, -, -, -, -, -, -, -, -, -, -, hupdated⟩
    simpa using hupdated.1
  · intro hle
    obtain ⟨hid, hc₁, hc₂, hc₃, hc₄, hc₅, hc₆, he₁, he₂, he₃, hname, hhash, hcreated, -⟩ := hu
    have hupdated : safeFrom u.createdAt now := ⟨hle, hnow⟩
    cases change with
    | password hash =>
      exact ⟨hid, hc₁, hc₂, hc₃, hc₄, hc₅, hc₆, he₁, he₂, he₃, hname,
        sqlLength_of_productionGrade hchange, hcreated, hupdated⟩
    | email e =>
      obtain ⟨⟨value, hvalue⟩, -⟩ := hchange
      obtain ⟨hshape, hbytes, hcanonical⟩ := canonicalizeEmail_ok hvalue
      exact UserRow.valid_of_texts hid hshape hbytes hcanonical rfl rfl hname hhash hcreated
        hupdated
    | name n =>
      obtain ⟨value, hvalue⟩ := hchange
      exact ⟨hid, hc₁, hc₂, hc₃, hc₄, hc₅, hc₆, he₁, he₂, he₃, normalizeDisplayName_ok hvalue,
        hhash, hcreated, hupdated⟩
    | status _ | role _ =>
      exact ⟨hid, hc₁, hc₂, hc₃, hc₄, hc₅, hc₆, he₁, he₂, he₃, hname, hhash, hcreated,
        hupdated⟩

/-! ## One operation -/

/-- Writing back a sequence that has one row leaves it with one. -/
theorem sequenceRows_setSequence_self (rows : List SequenceRow) (name : String) (seq : Int)
    (h : (rows.filter fun row => row.name = some name).length = 1) :
    ((setSequence rows name seq).filter fun row => row.name = some name).length = 1 := by
  refine le_antisymm (sequenceRows_setSequence_le rows name seq h.le) ?_
  obtain ⟨row, hfind, -⟩ := Option.map_eq_some_iff.mp (find_setSequence_self rows name seq)
  have hname := List.find?_some (p := fun row : SequenceRow => row.name = some name) hfind
  exact List.length_pos_of_mem (List.mem_filter.mpr ⟨List.mem_of_find?_eq_some hfind, hname⟩)

namespace UsersAccepted

variable {phc : PhcParser} {db db' : Database} {now : Int}

theorem exists_sequence (h : UsersAccepted phc db) : ∃ seq, db.sequence "users" = some seq := by
  have hone := h.userSequence
  unfold Database.sequenceRows at hone
  obtain ⟨row, hmem⟩ := List.exists_mem_of_length_pos (Nat.lt_of_lt_of_eq Nat.one_pos hone.symm)
  obtain ⟨hin, hname⟩ := List.mem_filter.mp hmem
  have hsome : (db.sqliteSequence.find? fun row => row.name = some "users").isSome = true :=
    List.find?_isSome.mpr ⟨row, hin, hname⟩
  obtain ⟨found, hfound⟩ := Option.isSome_iff_exists.mp hsome
  exact ⟨found.seq, by simp [Database.sequence, hfound]⟩

theorem userIds (h : UsersAccepted phc db) : UserIds db := by
  obtain ⟨seq, hseq⟩ := h.exists_sequence
  have hhigh := h.userHighWater seq hseq
  have hsafe := h.sequenceSafe seq hseq
  refine ⟨fun u hu => (h.user u hu).1, ?_, ?_⟩
  · rwa [hseq, Option.getD_some]
  · rw [hseq, Option.getD_some]
    exact hsafe.1

/-- The invariant only reads the users and their sequence. -/
theorem congr (h : UsersAccepted phc db) (husers : db'.users = db.users)
    (hsequence : db'.sqliteSequence = db.sqliteSequence) : UsersAccepted phc db' := by
  have hseq : db'.sequence "users" = db.sequence "users" := by
    simp only [Database.sequence, hsequence]
  refine ⟨husers ▸ h.user, husers ▸ h.userCount, husers ▸ h.passwordHash, ?_, ?_, ?_⟩
  · have := h.userSequence
    unfold Database.sequenceRows at this ⊢
    rwa [hsequence]
  · rw [hseq, husers]
    exact h.userHighWater
  · rw [hseq]
    exact h.sequenceSafe

theorem withUser (h : UsersAccepted phc db) {email : CanonicalEmail} {name passwordHash : String}
    (hemail : ∃ value, canonicalizeEmail value = .ok email)
    (hname : ∃ value, normalizeDisplayName value = .ok name)
    (hhash : passwordHashIsProductionGrade phc passwordHash = true)
    (hcount : (db.users.length : Int) < maxUsers)
    (hroom : (db.sequence "users").getD 0 < maxJsSafeInteger) (hnow : safeFrom 0 now) :
    UsersAccepted phc (db.withUser (email.toRow name passwordHash now)) := by
  have hids : UserIds (db.withUser (email.toRow name passwordHash now)) := h.userIds.withUser hroom
  have hsequence : (db.withUser (email.toRow name passwordHash now)).sequence "users" =
      some db.nextUserId := find_setSequence_self _ _ _
  obtain ⟨value, hvalue⟩ := hemail
  obtain ⟨hshape, hbytes, hcanonical⟩ := canonicalizeEmail_ok hvalue
  obtain ⟨raw, hraw⟩ := hname
  have hnew : safeFrom 1 db.nextUserId :=
    hids.safe _ (List.mem_append_right _ (List.mem_singleton_self _))
  refine ⟨fun u hu => ?_, ?_, fun u hu => ?_, ?_, fun seq hseq => ?_, fun seq hseq => ?_⟩
  · rcases List.mem_append.mp hu with hu | hu
    · exact h.user u hu
    · rw [List.mem_singleton.mp hu]
      exact UserRow.valid_of_texts hnew hshape hbytes hcanonical rfl rfl
        (normalizeDisplayName_ok hraw) (sqlLength_of_productionGrade hhash) hnow
        ⟨le_refl _, hnow.2⟩
  · simp only [Database.withUser_users, List.length_append, List.length_singleton]
    omega
  · rcases List.mem_append.mp hu with hu | hu
    · exact h.passwordHash u hu
    · rw [List.mem_singleton.mp hu]
      exact hhash
  · exact sequenceRows_setSequence_self _ _ _ h.userSequence
  · rw [hsequence, Option.mem_some_iff] at hseq
    have := hids.highWater
    rwa [hsequence, Option.getD_some, hseq] at this
  · rw [hsequence, Option.mem_some_iff] at hseq
    exact hseq ▸ ⟨by have := hnew.1; omega, hnew.2⟩

/-- After a change the table is accepted exactly if the clock had reached the creation of
the changed account. -/
theorem changeUser_iff (h : UsersAccepted phc db) {userId : Int} {change : UserChange}
    (hchange : change.Accepted phc db userId) (hnow : now ≤ maxJsSafeInteger) :
    UsersAccepted phc (db.changeUser userId now change) ↔
      ∀ u ∈ db.users, u.id = userId → u.createdAt ≤ now := by
  have husers : (db.changeUser userId now change).users =
      db.users.map fun u => if u.id = userId then change.apply now u else u := by
    unfold Database.changeUser
    split <;> rfl
  have hsequences : (db.changeUser userId now change).sqliteSequence = db.sqliteSequence := by
    unfold Database.changeUser
    split <;> rfl
  have hseq : (db.changeUser userId now change).sequence "users" = db.sequence "users" := by
    simp only [Database.sequence, hsequences]
  constructor
  · intro hafter u hu hid
    have hmem : change.apply now u ∈ (db.changeUser userId now change).users := by
      rw [husers]
      exact List.mem_map.mpr ⟨u, hu, if_pos hid⟩
    exact (UserChange.valid_apply_iff (h.user u hu) hchange hnow).mp (hafter.user _ hmem)
  · intro hreached
    refine ⟨fun u hu => ?_, ?_, fun u hu => ?_, ?_, ?_, ?_⟩
    · rw [husers] at hu
      obtain ⟨w, hw, rfl⟩ := List.mem_map.mp hu
      split
      · rename_i hid
        exact (UserChange.valid_apply_iff (h.user w hw) hchange hnow).mpr (hreached w hw hid)
      · exact h.user w hw
    · rw [husers, List.length_map]
      exact h.userCount
    · rw [husers] at hu
      obtain ⟨w, hw, rfl⟩ := List.mem_map.mp hu
      split
      · cases change with
        | password hash => exact hchange
        | email _ | name _ | status _ | role _ => exact h.passwordHash w hw
      · exact h.passwordHash w hw
    · have := h.userSequence
      unfold Database.sequenceRows at this ⊢
      rwa [hsequences]
    · rw [hseq, map_id_changeUser]
      exact h.userHighWater
    · rw [hseq]
      exact h.sequenceSafe

end UsersAccepted

/-- The reading of a change is not before the creation of the account it changes. -/
def NotBeforeCreation (db : Database) (op : AccountOperation) (now : Int) : Prop :=
  ∀ userId ∈ op.target?, ∀ u ∈ db.users, u.id = userId → u.createdAt ≤ now

/-- All readings are in range, and those of changes that succeed not before the creation. -/
def KeepsUsers (phc : PhcParser) (s : Store) (a : AccountOperation × Int) : Prop :=
  safeFrom 0 a.2 ∧
    ∀ db', a.1.execute phc s.db a.2 = .ok db' → NotBeforeCreation s.db a.1 a.2

theorem AccountEffect.usersAccepted {phc : PhcParser} {db db' : Database} {now : Int}
    {op : AccountOperation} (h : AccountEffect phc db now op db') (hnow : safeFrom 0 now)
    (hreached : NotBeforeCreation db op now) (hdb : UsersAccepted phc db) :
    UsersAccepted phc db' := by
  cases h with
  | same => exact hdb
  | issue hok =>
    rw [issueSessionForUser_frame hok]
    exact hdb.congr rfl rfl
  | renewContext p => exact hdb.congr rfl rfl
  | renewForVault p => exact hdb.congr rfl rfl
  | revoke p _ => exact hdb.congr rfl rfl
  | created hemail hname hhash hcount hroom _ =>
    exact hdb.withUser hemail hname hhash hcount hroom hnow
  | changed htarget _ hchange =>
    exact (hdb.changeUser_iff hchange hnow.2).mpr (hreached _ htarget)
  | toggled _ _ => exact hdb.congr rfl rfl

/-! ## Runs -/

/-- From a verified database, in every run whose changes, if they succeed, are made no earlier than
the creation of the account they change, the user table stays accepted.  The condition is exact
for each change: one that commits in an accepted database leaves an accepted one just if
its reading meets it. -/
theorem users_accepted_of_run {phc : PhcParser} {s₀ s : Store} {verifiedAt : Int}
    {as : List (AccountOperation × Int)}
    (hverified : Database.verifyConnection phc s₀.db verifiedAt = .ok ())
    (hrun : Run (Guarded (KeepsUsers phc) (Store.Account phc)) s₀ as s) :
    UsersAccepted phc s.db ∧
      ∀ (op : AccountOperation) (now : Int) (db' : Database), safeFrom 0 now →
        op.execute phc s.db now = .ok db' → op.target? ≠ none →
        (UsersAccepted phc db' ↔ NotBeforeCreation s.db op now) := by
  have hstart : UsersAccepted phc s₀.db :=
    (LogicalInvariants.of_verifyConnection hverified).usersAccepted
  have hs : UsersAccepted phc s.db := by
    refine Run.invariant_of_guard (I := fun s => UsersAccepted phc s.db) ?_ hstart hrun
    rintro s ⟨op, now⟩ s' haccepted ⟨hnow, hreached⟩ hstep
    cases hstep with
    | rollback _ => exact haccepted
    | commit hok =>
      have heffect := AccountOperation.effect_of_execute hok
      exact heffect.usersAccepted hnow (hreached _ hok) haccepted
  refine ⟨hs, fun op now db' hnow hok _ => ⟨fun hafter userId htarget u hu hid => ?_,
    fun hreached => (AccountOperation.effect_of_execute hok).usersAccepted hnow hreached hs⟩⟩
  obtain ⟨change, -, hchange, rfl⟩ := changes_of_execute hok htarget
  exact (hs.changeUser_iff hchange hnow.2).mp hafter u hu hid

/-- The personal server after a second account was created at time 100. -/
def guestCreated : Store :=
  (⟨personalServer, constraints_personalServer⟩ : Store).account onePhc
    (.createUser "guest@example.test" "Guest" somePasswordHash) 100

theorem users_accepted_of_later_rename :
    UsersAccepted onePhc (guestCreated.account onePhc (.setUserName 2 "Visitor") 150).db := by
  let s₀ : Store := ⟨personalServer, constraints_personalServer⟩
  have hcreate :
      NotBeforeCreation s₀.db (.createUser "guest@example.test" "Guest" somePasswordHash) 100 :=
    fun userId htarget => by cases htarget
  have hrename : NotBeforeCreation guestCreated.db (.setUserName 2 "Visitor") 150 := by
    have hall : ∀ u ∈ guestCreated.db.users, u.createdAt ≤ 150 := by decide +kernel
    exact fun userId _ u hu _ => hall u hu
  have hverified : Database.verifyConnection onePhc s₀.db 500 = .ok () := by decide +kernel
  have hrun : Run (Guarded (KeepsUsers onePhc) (Store.Account onePhc)) s₀
      [(.createUser "guest@example.test" "Guest" somePasswordHash, 100),
        (.setUserName 2 "Visitor", 150)]
      (guestCreated.account onePhc (.setUserName 2 "Visitor") 150) :=
    .cons ⟨⟨by decide, fun _ _ => hcreate⟩, s₀.account_step onePhc _ _⟩
      (.cons ⟨⟨by decide, fun _ _ => hrename⟩, guestCreated.account_step onePhc _ _⟩ (.nil _))
  exact (users_accepted_of_run hverified hrun).1

/-- The same change by a clock that was set back to 50: it commits, and the database is
refused from then on. -/
theorem rename_before_creation_is_refused :
    Database.verifyConnection onePhc guestCreated.db 500 = .ok () ∧
      (∃ db', AccountOperation.execute onePhc guestCreated.db 50 (.setUserName 2 "Visitor") =
        .ok db' ∧ (∃ u ∈ db'.users, u.createdAt = 100 ∧ u.updatedAt = 50) ∧
        ¬UsersAccepted onePhc db' ∧
        Database.verifyConnection onePhc db' 500 = .error
          (.bail "database logical invariant failed (user field types and ranges): 2")) := by
  refine ⟨by decide +kernel, guestCreated.db.changeUser 2 50 (.name "Visitor"), by decide +kernel,
    by decide +kernel, fun h => ?_, by decide +kernel⟩
  have hinvalid : ¬∀ u ∈ (guestCreated.db.changeUser 2 50 (.name "Visitor")).users, u.Valid := by
    decide +kernel
  exact hinvalid h.user

end Blackglass
