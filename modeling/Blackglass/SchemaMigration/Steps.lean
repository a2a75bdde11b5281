import Blackglass.Accounts.UserTable
import Blackglass.SchemaMigration

/-!
# The validators along a migration

Every version is checked by a validator that asks for more than the one before.  For each step
there is a lemma that says what is left to ask of a database that the validator of the version
below has accepted (`StepAccepted`).  Three of the six steps ask for nothing but a clock that
reads a time the clients can represent.  Version 5 gives all rows to one user, and so applies to
the whole database what it allows one user; version 7 needs someone to be the administrator.
-/

namespace Blackglass

open Rows Outcome

/-! ## What a step asks for -/

/-- Everything together is within what one user may have, and no vault is ahead of the revisions
that are stored. -/
structure Database.FitsOneOwner (db : Database) (now : Int) : Prop where
  highWater : ∀ v ∈ db.vaults, v.version ≤ db.maxRevisionUid
  sessions : ((db.sessions.filter (·.live now)).length : Int) ≤ maxSessionsPerUser
  retiredVaults : (db.retiredVaults.length : Int) ≤ maxRetiredVaultsPerOwner

structure Database.StepAccepted (db : Database) (version : Int) (s : StepReadings) : Prop where
  appliedAt : safeFrom 0 s.appliedAt
  fits : version = 5 → db.FitsOneOwner s.verifiedAt
  administrator : version = 7 → db.users ≠ [] ∧ safeFrom 0 s.epochAt

section

variable {phc : PhcParser} {db : Database} {user : InitialUser} {now now' version : Int}
  {s : StepReadings}

theorem schemaMigrations_upgrade : (db.upgrade user version s).schemaMigrations =
    db.schemaMigrations ++ [⟨version, s.appliedAt⟩] := by
  unfold Database.upgrade
  split_ifs <;> rfl

theorem tables_append {old new : List Table} {version' : Int}
    (h : ∀ table, table ∈ old ↔ table ∈ Database.tablesAt version)
    (hnew : ∀ table,
      table ∈ Database.tablesAt version ++ new ↔ table ∈ Database.tablesAt version') :
    ∀ table, table ∈ old ++ new ↔ table ∈ Database.tablesAt version' := by
  intro table
  rw [← hnew, List.mem_append, List.mem_append, h]

theorem VersionInvariants.safe_of_upgrade
    (h : VersionInvariants phc (db.upgrade user version s) version now) :
    safeFrom 0 s.appliedAt := by
  refine h.logical.migration ((h.tables _).mpr (by simp [Database.tablesAt]))
    ⟨version, s.appliedAt⟩ ?_
  rw [schemaMigrations_upgrade]
  exact List.mem_append_right _ (List.mem_singleton.mpr rfl)

theorem VersionInvariants.migration_upgrade (h : VersionInvariants phc db version now)
    (hs : safeFrom 0 s.appliedAt) {v : Int} :
    ∀ m ∈ (db.upgrade user v s).schemaMigrations, safeFrom 0 m.appliedAt := by
  intro m hm
  rw [schemaMigrations_upgrade] at hm
  rcases List.mem_append.mp hm with hm | hm
  · exact h.logical.migration ((h.tables _).mpr (by simp [Database.tablesAt])) m hm
  · rw [List.mem_singleton.mp hm]
    exact hs

theorem allowedSequences_eq (h : .memberships ∉ db.tables) (multiUser : Bool) :
    db.allowedSequences multiUser =
      if multiUser then ["revisions", "users"] else ["revisions"] := by
  rw [Database.allowedSequences, if_neg h]

theorem VersionInvariants.not_mem_tables (h : VersionInvariants phc db version now) {table : Table}
    (hnot : table ∉ Database.tablesAt version) : table ∉ db.tables :=
  fun hin => hnot ((h.tables table).mp hin)

theorem SequenceRow.Valid.mono {row : SequenceRow} {allowed allowed' : List String}
    (h : row.Valid allowed) (hsub : allowed ⊆ allowed') : row.Valid allowed' :=
  ⟨fun name hname => hsub (h.1 name hname), h.2⟩

/-! ## Before version 5 -/

/-- Inline content stays where it is. -/
theorem contentValid_upgrade_two {r : RevisionRow} (hsize : 0 ≤ r.size)
    (h : r.ContentValid db false) : r.ContentValid (db.upgrade user 2 s) true := by
  obtain ⟨hzero, hpos⟩ : (r.size = 0 → r.content = none) ∧
      (0 < r.size → ∃ bytes ∈ r.content, (bytes.length : Int) = r.size) := h
  have hexternal : (db.upgrade user 2 s).revisionContent.find? (fun c => c.uid = r.uid) = none :=
    rfl
  simp only [RevisionRow.ContentValid, if_true, hexternal]
  refine ⟨fun h₀ => ⟨hzero h₀, trivial⟩, fun h₀ => ?_, fun bytes hbytes => ?_, by simp⟩
  · obtain ⟨bytes, hbytes, -⟩ := hpos h₀
    simp [Option.mem_def.mp hbytes]
  · rcases hsize.eq_or_lt with h₀ | h₀
    · rw [hzero h₀.symm] at hbytes
      cases hbytes
    · obtain ⟨bytes', hbytes', hlength⟩ := hpos h₀
      rwa [Option.mem_unique hbytes hbytes']

theorem VersionInvariants.upgrade_two (h : VersionInvariants phc db 1 now)
    (hs : safeFrom 0 s.appliedAt) : VersionInvariants phc (db.upgrade user 2 s) 2 now' := by
  have hl : LogicalInvariants phc db false false now := h.logical
  have htables : ∀ table, table ∈ (db.upgrade user 2 s).tables ↔ table ∈ Database.tablesAt 2 :=
    tables_append h.tables fun table => by cases table <;> decide
  have hno : ∀ {table}, table ∉ Database.tablesAt 2 → table ∉ (db.upgrade user 2 s).tables :=
    fun hnot hin => hnot ((htables _).mp hin)
  have hallowed : db.allowedSequences false ⊆ (db.upgrade user 2 s).allowedSequences false := by
    rw [allowedSequences_eq (h.not_mem_tables (by decide)), allowedSequences_eq (hno (by decide))]
    exact List.Subset.refl _
  exact {
    supported := by decide
    tables := htables
    foreignKeys := ⟨h.foreignKeys.1, fun _ _ hc => absurd hc List.not_mem_nil,
      fun h => absurd h (by decide), fun h => absurd h (by decide), fun h => absurd h (by decide)⟩
    logical := { hl with
      content := fun r hr => contentValid_upgrade_two (hl.revision r hr).2.2.2.2.2.1.1
        (hl.content r hr)
      sequenceRow := fun row hrow => (hl.sequenceRow row hrow).mono hallowed
      migration := fun _ => h.migration_upgrade hs
      session := fun _ _ hs => absurd hs List.not_mem_nil
      sessionCount := fun _ => by show ((0 : Nat) : Int) ≤ maxSessions; decide
      sessionsPerUser := fun _ h => absurd h (by decide)
      retired := fun ht => absurd ht (hno (by decide))
      retiredPerOwner := fun ht => absurd ht (hno (by decide))
      retiredCount := fun ht => absurd ht (hno (by decide))
      disjoint := fun ht => absurd ht (hno (by decide)) }
    membership := fun h => absurd h (by decide)
    v7 := fun h => absurd h (by decide) }

theorem VersionInvariants.upgrade_three (h : VersionInvariants phc db 2 now)
    (hs : safeFrom 0 s.appliedAt) : VersionInvariants phc (db.upgrade user 3 s) 3 now' := by
  have hl : LogicalInvariants phc db true false now := h.logical
  exact {
    supported := by decide
    tables := fun table => (h.tables table).trans (by cases table <;> decide)
    foreignKeys := ⟨h.foreignKeys.1, fun _ => h.foreignKeys.2.1 (by decide),
      fun h => absurd h (by decide), fun h => absurd h (by decide), fun h => absurd h (by decide)⟩
    logical := { hl with
      migration := fun _ => h.migration_upgrade hs
      sessionsPerUser := fun _ h => absurd h (by decide) }
    membership := fun h => absurd h (by decide)
    v7 := fun h => absurd h (by decide) }

theorem VersionInvariants.upgrade_four (h : VersionInvariants phc db 3 now)
    (hs : safeFrom 0 s.appliedAt) : VersionInvariants phc (db.upgrade user 4 s) 4 now' := by
  have hl : LogicalInvariants phc db true false now := h.logical
  have htables : ∀ table, table ∈ (db.upgrade user 4 s).tables ↔ table ∈ Database.tablesAt 4 :=
    tables_append h.tables fun table => by cases table <;> decide
  have hno : .memberships ∉ (db.upgrade user 4 s).tables :=
    fun hin => absurd ((htables _).mp hin) (by decide)
  have hallowed : db.allowedSequences false ⊆ (db.upgrade user 4 s).allowedSequences false := by
    rw [allowedSequences_eq (h.not_mem_tables (by decide)), allowedSequences_eq hno]
    exact List.Subset.refl _
  have hsessions : .sessions ∈ db.tables := (h.tables _).mpr (by decide)
  exact {
    supported := by decide
    tables := htables
    foreignKeys := ⟨h.foreignKeys.1, fun _ => h.foreignKeys.2.1 (by decide),
      fun h => absurd h (by decide), fun h => absurd h (by decide), fun h => absurd h (by decide)⟩
    logical := { hl with
      sequenceRow := fun row hrow => (hl.sequenceRow row hrow).mono hallowed
      migration := fun _ => h.migration_upgrade hs
      session := fun _ => hl.session hsessions
      sessionCount := fun _ => hl.sessionCount hsessions
      sessionsPerUser := fun _ h => absurd h (by decide)
      retired := fun _ _ hr => absurd hr List.not_mem_nil
      retiredPerOwner := fun _ h => absurd h (by decide)
      retiredCount := fun _ => by show ((0 : Nat) : Int) ≤ maxRetiredVaults; decide
      disjoint := fun _ _ hr => absurd hr List.not_mem_nil }
    membership := fun h => absurd h (by decide)
    v7 := fun h => absurd h (by decide) }

/-! ## Version 5 -/

/-- What `InitialUser::new` accepts, the validator accepts. -/
theorem InitialUser.valid_toRow {email name passwordHash : String}
    (h : InitialUser.new phc email name passwordHash = .ok user) (hnow : safeFrom 0 now) :
    (user.toRow now).Valid ∧ passwordHashIsProductionGrade phc user.passwordHash = true := by
  simp only [InitialUser.new, bind_eq_ok, rejectIf_eq_ok, exists_unit, pure_eq_ok,
    Bool.not_eq_false] at h
  obtain ⟨e, he, name, hname, hgrade, rfl⟩ := h
  obtain ⟨hshape, hbytes, hcanonical⟩ := canonicalizeEmail_ok he
  exact ⟨UserRow.valid_of_texts (by decide : safeFrom 1 1) hshape hbytes hcanonical rfl rfl
    (normalizeDisplayName_ok hname) (sqlLength_of_productionGrade hgrade) hnow
    ⟨le_refl _, hnow.2⟩, hgrade⟩

/-- Before version 5 every revision is user 1's already. -/
theorem VersionInvariants.revisions_upgrade_five (h : VersionInvariants phc db 4 now) :
    (db.upgrade user 5 s).revisions = db.revisions := by
  have hl : LogicalInvariants phc db true false now := h.logical
  have hsame : ∀ r ∈ db.revisions, { r with userId := 1 } = r := by
    intro r hr
    obtain ⟨-, -, -, -, -, -, -, -, -, huser, -⟩ := hl.revision r hr
    have huser : r.userId = 1 := huser
    rw [← huser]
  exact (List.map_congr_left hsame).trans (List.map_id' db.revisions)

theorem VersionInvariants.safe_maxRevisionUid (h : VersionInvariants phc db version now) :
    safeFrom 0 db.maxRevisionUid := by
  have huid : ∀ uid ∈ db.revisions.map (·.uid), safeFrom 1 uid := by
    intro uid huid
    obtain ⟨r, hr, rfl⟩ := List.mem_map.mp huid
    exact (h.logical.revision r hr).1
  refine ⟨?_, maxOr0_le (by decide) fun uid hmem => (huid uid hmem).2⟩
  rw [Database.maxRevisionUid]
  cases huids : db.revisions.map (·.uid) with
  | nil => decide
  | cons uid uids =>
    have hmem : uid ∈ uid :: uids := List.mem_cons_self
    have hle := le_maxOr0 hmem
    have := (huid uid (huids ▸ hmem)).1
    omega

/-- The sessions of the one user are all that there are. -/
theorem length_liveSessionsOf_upgrade_five :
    ((db.upgrade user 5 s).liveSessionsOf 1 now).length =
      (db.sessions.filter (·.live now)).length := by
  show ((db.sessions.map _).filter _).length = _
  rw [List.filter_map, List.length_map]
  rfl

/-- And so are the markers. -/
theorem retiredVaultsOf_upgrade_five :
    ((db.upgrade user 5 s).retiredVaultsOf 1).length = db.retiredVaults.length := by
  show ((db.retiredVaults.map _).filter _).length = _
  rw [List.filter_map, List.length_map]
  exact congrArg List.length (List.filter_eq_self.mpr fun _ _ => rfl)

theorem VersionInvariants.fits_of_upgrade_five
    (h : VersionInvariants phc (db.upgrade user 5 s) 5 now') : db.FitsOneOwner now' := by
  have hl : LogicalInvariants phc (db.upgrade user 5 s) true true now' := h.logical
  have hsessions : .sessions ∈ (db.upgrade user 5 s).tables := (h.tables _).mpr (by decide)
  have hretired : .retiredVaults ∈ (db.upgrade user 5 s).tables := (h.tables _).mpr (by decide)
  refine ⟨fun v hv => ?_, ?_, ?_⟩
  · have hversion := (hl.version { v with ownerUserId := 1 } (List.mem_map_of_mem hv)).2
    have hsequence : (db.upgrade user 5 s).sequence "revisions" = some db.maxRevisionUid :=
      sequence_revisions_migration5 user s.appliedAt
    rwa [hsequence] at hversion
  · cases hlive : db.sessions.filter (·.live now') with
    | nil => decide
    | cons x xs =>
      have hx : x ∈ db.sessions.filter (·.live now') := hlive ▸ List.mem_cons_self
      obtain ⟨hmem, hx⟩ := List.mem_filter.mp hx
      have hcount := hl.sessionsPerUser hsessions rfl { x with userId := 1 }
        (List.mem_map_of_mem hmem) hx
      rwa [length_liveSessionsOf_upgrade_five, hlive] at hcount
  · cases hrows : db.retiredVaults with
    | nil => decide
    | cons x xs =>
      have hx : x ∈ db.retiredVaults := hrows ▸ List.mem_cons_self
      have hcount := hl.retiredPerOwner hretired rfl { x with ownerUserId := 1 }
        (List.mem_map_of_mem hx)
      rwa [retiredVaultsOf_upgrade_five, hrows] at hcount

/-- The sequences after version 5. -/
theorem VersionInvariants.sequenceRow_upgrade_five (h : VersionInvariants phc db 4 now) :
    ∀ row ∈ (db.upgrade user 5 s).sqliteSequence, row.Valid ["revisions", "users"] := by
  intro row hrow
  rcases List.mem_append.mp hrow with hrow | hrow
  · have hvalid := h.logical.sequenceRow row (List.mem_filter.mp hrow).1
    rw [allowedSequences_eq (h.not_mem_tables (by decide))] at hvalid
    exact hvalid.mono (by decide)
  · simp only [List.mem_cons, List.not_mem_nil, or_false] at hrow
    rcases hrow with rfl | rfl
    · decide
    · exact ⟨by simp, h.safe_maxRevisionUid⟩

theorem VersionInvariants.upgrade_five (h : VersionInvariants phc db 4 now)
    {email name passwordHash : String}
    (huser : InitialUser.new phc email name passwordHash = .ok user)
    (hs : safeFrom 0 s.appliedAt) (hfits : db.FitsOneOwner now') :
    VersionInvariants phc (db.upgrade user 5 s) 5 now' := by
  have hl : LogicalInvariants phc db true false now := h.logical
  obtain ⟨hvalid, hgrade⟩ := InitialUser.valid_toRow huser hs
  have hrevisions : (db.upgrade user 5 s).revisions = db.revisions := h.revisions_upgrade_five
  have htables : ∀ table, table ∈ (db.upgrade user 5 s).tables ↔ table ∈ Database.tablesAt 5 :=
    tables_append h.tables fun table => by cases table <;> decide
  have hsessions : .sessions ∈ db.tables := (h.tables _).mpr (by decide)
  have hretired : .retiredVaults ∈ db.tables := (h.tables _).mpr (by decide)
  have hno : .memberships ∉ (db.upgrade user 5 s).tables :=
    fun hin => absurd ((htables _).mp hin) (by decide)
  have hvault : ∀ id, (db.upgrade user 5 s).hasVault id = db.hasVault id := by
    intro id
    show (db.vaults.map _).any _ = _
    rw [List.any_map]
    rfl
  have hheads : ∀ id, (db.upgrade user 5 s).liveSize id = db.liveSize id ∧
      (db.upgrade user 5 s).maxUidOf id = db.maxUidOf id := by
    intro id
    constructor
    · rw [liveSize_eq, liveSize_eq, Database.revisionsOf, hrevisions]
      rfl
    · rw [Database.maxUidOf, hrevisions]
      rfl
  exact {
    supported := by decide
    tables := htables
    foreignKeys := by
      refine ⟨fun r hr => ?_, fun _ c hc => ?_, fun _ => ⟨?_, ?_, ?_, ?_⟩,
        fun h => absurd h (by decide), fun h => absurd h (by decide)⟩
      · rw [hvault]
        exact h.foreignKeys.1 r (hrevisions ▸ hr)
      · rw [hrevisions]
        exact h.foreignKeys.2.1 (by decide) c hc
      all_goals
        intro row hrow
        obtain ⟨old, -, rfl⟩ := List.mem_map.mp hrow
        rfl
    logical := {
      user := fun _ u hu => List.mem_singleton.mp hu ▸ hvalid
      userCount := fun _ => by show ((1 : Nat) : Int) ≤ maxUsers; decide
      passwordHash := fun _ u hu => List.mem_singleton.mp hu ▸ hgrade
      vaultFields := fun v hv => by
        obtain ⟨w, hw, rfl⟩ := List.mem_map.mp hv
        obtain ⟨h₁, h₂, h₃, h₄, h₅, h₆, h₇, h₈, -⟩ := hl.vaultFields w hw
        exact ⟨h₁, h₂, h₃, h₄, h₅, h₆, h₇, h₈, fun _ => by show safeFrom 1 1; decide⟩
      credentials := fun v hv => by
        obtain ⟨w, hw, rfl⟩ := List.mem_map.mp hv
        exact hl.credentials w hw
      vaultCount := by
        show ((db.vaults.map _).length : Int) ≤ maxVaults
        rw [List.length_map]
        exact hl.vaultCount
      revision := fun r hr => by
        rw [hrevisions] at hr
        obtain ⟨h₁, h₂, h₃, h₄, h₅, h₆, h₇, h₈, h₉, huser, hts⟩ := hl.revision r hr
        have huser : r.userId = 1 := huser
        refine ⟨h₁, h₂, h₃, h₄, h₅, h₆, h₇, h₈, h₉, ?_, hts⟩
        show safeFrom 1 r.userId
        rw [huser]
        decide
      notice := fun r hr => hl.notice r (hrevisions ▸ hr)
      content := fun r hr => hl.content r (hrevisions ▸ hr)
      sequenceRow := fun row hrow => by
        rw [allowedSequences_eq hno]
        exact h.sequenceRow_upgrade_five row hrow
      revisionSequence := by
        show List.length (List.filter _ (db.migration5 user s.appliedAt).sqliteSequence) ≤ 1
        rw [sequence_migration5 (by decide)]
        simp
      userSequence := fun _ => by
        show List.length (List.filter _ (db.migration5 user s.appliedAt).sqliteSequence) = 1
        rw [sequence_migration5 (by decide)]
        simp
      userHighWater := fun _ seq hseq => by
        have hone : (db.upgrade user 5 s).sequence "users" = some 1 := by
          show (db.migration5 user s.appliedAt).sequence "users" = some 1
          rw [sequence_eq_head?, sequence_migration5 (by decide)]
          simp
        rw [hone, Option.mem_some_iff] at hseq
        rw [← hseq]
        exact le_of_eq rfl
      version := fun v hv => by
        obtain ⟨w, hw, rfl⟩ := List.mem_map.mp hv
        have hsequence : (db.upgrade user 5 s).sequence "revisions" = some db.maxRevisionUid :=
          sequence_revisions_migration5 user s.appliedAt
        rw [(hheads _).2, hsequence]
        exact ⟨(hl.version w hw).1, hfits.highWater w hw⟩
      size := fun v hv => by
        obtain ⟨w, hw, rfl⟩ := List.mem_map.mp hv
        rw [(hheads _).1]
        exact hl.size w hw
      migration := fun _ => h.migration_upgrade hs
      session := fun _ x hx => by
        obtain ⟨y, hy, rfl⟩ := List.mem_map.mp hx
        obtain ⟨-, hrest⟩ := hl.session hsessions y hy
        exact ⟨fun _ => by show safeFrom 1 1; decide, hrest⟩
      sessionCount := fun _ => by
        show ((db.sessions.map _).length : Int) ≤ maxSessions
        rw [List.length_map]
        exact hl.sessionCount hsessions
      sessionsPerUser := fun _ _ x hx _ => by
        obtain ⟨y, -, rfl⟩ := List.mem_map.mp hx
        rw [length_liveSessionsOf_upgrade_five]
        exact hfits.sessions
      retired := fun _ x hx => by
        obtain ⟨y, hy, rfl⟩ := List.mem_map.mp hx
        obtain ⟨-, hrest⟩ := hl.retired hretired y hy
        exact ⟨fun _ => by show safeFrom 1 1; decide, hrest⟩
      retiredPerOwner := fun _ _ x hx => by
        obtain ⟨y, -, rfl⟩ := List.mem_map.mp hx
        rw [retiredVaultsOf_upgrade_five]
        exact hfits.retiredVaults
      retiredCount := fun _ => by
        show ((db.retiredVaults.map _).length : Int) ≤ maxRetiredVaults
        rw [List.length_map]
        exact hl.retiredCount hretired
      disjoint := fun _ x hx => by
        obtain ⟨y, hy, rfl⟩ := List.mem_map.mp hx
        rw [hvault]
        exact hl.disjoint hretired y hy }
    membership := fun h => absurd h (by decide)
    v7 := fun h => absurd h (by decide) }

/-! ## Versions 6 and 7 -/

/-- A database without shares passes the checks on shares if it has no sequence for them. -/
theorem verifyMembershipInvariants_of_nil (hnone : db.memberships = [])
    (hsequence : ∀ row ∈ db.sqliteSequence, row.name ≠ some "memberships") :
    db.verifyMembershipInvariants = .ok () := by
  have hrows : db.sqliteSequence.filter (fun row => row.name = some "memberships") = [] := by
    rw [List.filter_eq_nil_iff]
    exact fun row hrow heq => hsequence row hrow (decide_eq_true_eq.mp heq)
  have hvalue : db.sequence "memberships" = none := by
    rw [sequence_eq_head?, hrows]
    rfl
  simp only [Database.verifyMembershipInvariants, hnone, hrows, hvalue]
  rfl

theorem VersionInvariants.upgrade_six (h : VersionInvariants phc db 5 now)
    (hs : safeFrom 0 s.appliedAt) : VersionInvariants phc (db.upgrade user 6 s) 6 now' := by
  have hl : LogicalInvariants phc db true true now := h.logical
  have htables : ∀ table, table ∈ (db.upgrade user 6 s).tables ↔ table ∈ Database.tablesAt 6 :=
    tables_append h.tables fun table => by cases table <;> decide
  have hretired : .retiredVaults ∈ db.tables := (h.tables _).mpr (by decide)
  have hsequence : ∀ row ∈ db.sqliteSequence, row.Valid ["revisions", "users"] := by
    have := hl.sequenceRow
    rwa [allowedSequences_eq (h.not_mem_tables (by decide))] at this
  obtain ⟨hvault, hcontent, howners, -⟩ := h.foreignKeys
  obtain ⟨hvaultOwner, hauthor, -, hmarker⟩ := howners (by decide)
  exact {
    supported := by decide
    tables := htables
    foreignKeys := ⟨hvault, fun _ => hcontent (by decide),
      fun _ => ⟨hvaultOwner, hauthor, fun _ hx => absurd hx List.not_mem_nil, hmarker⟩,
      fun _ _ hm => absurd hm List.not_mem_nil, fun h => absurd h (by decide)⟩
    logical := { hl with
      sequenceRow := fun row hrow => by
        refine (hsequence row hrow).mono ?_
        rw [Database.allowedSequences, if_pos ((htables _).mpr (by decide))]
        decide
      migration := fun _ => h.migration_upgrade hs
      session := fun _ _ hx => absurd hx List.not_mem_nil
      sessionCount := fun _ => by show ((0 : Nat) : Int) ≤ maxSessions; decide
      sessionsPerUser := fun _ _ _ hx => absurd hx List.not_mem_nil
      retired := fun _ => hl.retired hretired
      retiredPerOwner := fun _ => hl.retiredPerOwner hretired
      retiredCount := fun _ => hl.retiredCount hretired
      disjoint := fun _ => hl.disjoint hretired }
    membership := fun _ => by
      refine verifyMembershipInvariants_of_nil rfl fun row hrow hname => ?_
      exact absurd ((hsequence row hrow).1 _ (Option.mem_def.mpr hname)) (by decide)
    v7 := fun h => absurd h (by decide) }

theorem hasUser_upgrade_seven (id : Int) :
    (db.upgrade user 7 s).hasUser id = db.hasUser id := by
  show (db.users.map _).any _ = _
  rw [List.any_map]
  rfl

theorem VersionInvariants.administrator_of_upgrade_seven
    (h : VersionInvariants phc (db.upgrade user 7 s) 7 now) :
    db.users ≠ [] ∧ safeFrom 0 s.epochAt := by
  obtain ⟨⟨u, hu, -⟩, hsettings⟩ := h.v7 le_rfl
  obtain ⟨w, hw, -⟩ := List.mem_map.mp hu
  refine ⟨List.ne_nil_of_mem hw, ?_⟩
  obtain ⟨row, hrow⟩ := List.exists_mem_of_length_pos (hsettings.symm ▸ Nat.one_pos)
  obtain ⟨hmem, hsafe⟩ := List.mem_filter.mp hrow
  obtain ⟨id, -, rfl⟩ := List.mem_map.mp hmem
  simpa using hsafe

theorem VersionInvariants.upgrade_seven (h : VersionInvariants phc db 6 now)
    (hs : safeFrom 0 s.appliedAt) (husers : db.users ≠ []) (hepoch : safeFrom 0 s.epochAt) :
    VersionInvariants phc (db.upgrade user 7 s) 7 now' := by
  have hl : LogicalInvariants phc db true true now := h.logical
  have htables : ∀ table, table ∈ (db.upgrade user 7 s).tables ↔ table ∈ Database.tablesAt 7 :=
    tables_append h.tables fun table => by cases table <;> decide
  have hretired : .retiredVaults ∈ db.tables := (h.tables _).mpr (by decide)
  obtain ⟨hvault, hcontent, howners, hmembers, -⟩ := h.foreignKeys
  obtain ⟨hvaultOwner, hauthor, -, hmarker⟩ := howners (by decide)
  have hmembers := hmembers (by decide)
  obtain ⟨first, hfirst⟩ : ∃ first, db.firstUserId = some first := by
    rw [Database.firstUserId, ← Option.isSome_iff_exists, List.isSome_min?_iff]
    simpa using husers
  obtain ⟨admin, hadmin, hid⟩ := List.mem_map.mp (List.min?_mem hfirst)
  have hsettings : (db.upgrade user 7 s).serverSettings =
      [{ id := 1, selfRegistrationEnabled := false, updatedAt := s.epochAt,
         updatedBy := first }] := by
    show db.firstUserId.toList.map _ = _
    rw [hfirst]
    rfl
  have hids : (db.upgrade user 7 s).users.map (·.id) = db.users.map (·.id) := by
    show (db.users.map _).map _ = _
    rw [List.map_map]
    rfl
  exact {
    supported := by decide
    tables := htables
    foreignKeys := by
      simp only [Database.ForeignKeys, hasUser_upgrade_seven]
      refine ⟨hvault, fun _ => hcontent (by decide),
        fun _ => ⟨hvaultOwner, hauthor, fun _ hx => absurd hx List.not_mem_nil, hmarker⟩,
        fun _ => hmembers, fun _ row hrow => ?_⟩
      rw [hsettings] at hrow
      rw [List.mem_singleton.mp hrow]
      exact hasUser_iff.mpr ⟨admin, hadmin, hid⟩
    logical := { hl with
      user := fun _ u hu => by
        obtain ⟨w, hw, rfl⟩ := List.mem_map.mp hu
        exact hl.user rfl w hw
      userCount := fun _ => by
        show ((db.users.map _).length : Int) ≤ maxUsers
        rw [List.length_map]
        exact hl.userCount rfl
      passwordHash := fun _ u hu => by
        obtain ⟨w, hw, rfl⟩ := List.mem_map.mp hu
        exact hl.passwordHash rfl w hw
      userHighWater := fun _ seq hseq => hids ▸ hl.userHighWater rfl seq hseq
      sequenceRow := fun row hrow => by
        refine (hl.sequenceRow row hrow).mono ?_
        rw [Database.allowedSequences, if_pos ((h.tables _).mpr (by decide)),
          Database.allowedSequences, if_pos ((htables _).mpr (by decide))]
        exact List.Subset.refl _
      migration := fun _ => h.migration_upgrade hs
      session := fun _ _ hx => absurd hx List.not_mem_nil
      sessionCount := fun _ => by show ((0 : Nat) : Int) ≤ maxSessions; decide
      sessionsPerUser := fun _ _ _ hx => absurd hx List.not_mem_nil
      retired := fun _ => hl.retired hretired
      retiredPerOwner := fun _ => hl.retiredPerOwner hretired
      retiredCount := fun _ => hl.retiredCount hretired
      disjoint := fun _ => hl.disjoint hretired }
    membership := fun _ => h.membership le_rfl
    v7 := fun _ => by
      refine ⟨⟨_, List.mem_map_of_mem hadmin, ?_⟩, ?_⟩
      · show (if db.firstUserId = some admin.id then _ else _) = _
        rw [if_pos (hid ▸ hfirst)]
      · rw [hsettings]
        simp [hepoch] }

/-! ## One step -/

/-- Once the version below is accepted, a step is accepted just if it meets its conditions. -/
theorem VersionInvariants.upgrade_iff (h : VersionInvariants phc db version now)
    (hlt : version < 7) (huser : version = 4 →
      ∃ email name passwordHash, InitialUser.new phc email name passwordHash = .ok user) :
    VersionInvariants phc (db.upgrade user (version + 1) s) (version + 1) s.verifiedAt ↔
      db.StepAccepted (version + 1) s := by
  have hpos := h.supported.1
  have hcases : version = 1 ∨ version = 2 ∨ version = 3 ∨ version = 4 ∨ version = 5 ∨
    version = 6 := by omega
  constructor
  · intro h'
    refine ⟨h'.safe_of_upgrade, fun h₅ => ?_, fun h₇ => ?_⟩
    · rw [h₅] at h'
      exact h'.fits_of_upgrade_five
    · rw [h₇] at h'
      exact h'.administrator_of_upgrade_seven
  · rintro ⟨hs, hfits, hadmin⟩
    rcases hcases with rfl | rfl | rfl | rfl | rfl | rfl
    · exact h.upgrade_two hs
    · exact h.upgrade_three hs
    · exact h.upgrade_four hs
    · obtain ⟨email, name, passwordHash, huser⟩ := huser rfl
      exact h.upgrade_five huser hs (hfits rfl)
    · exact h.upgrade_six hs
    · obtain ⟨husers, hepoch⟩ := hadmin rfl
      exact h.upgrade_seven hs husers hepoch

/-- Along the whole way, all validators accept just if every step meets its conditions. -/
theorem VersionInvariants.upgraded_iff {clock : Int → StepReadings}
    (h : VersionInvariants phc db version now) (huser : version < 5 →
      ∃ email name passwordHash, InitialUser.new phc email name passwordHash = .ok user)
    {n : Nat} (hn : version + n ≤ 7) :
    (∀ m < n, VersionInvariants phc (db.upgraded user clock version (m + 1)) (version + m + 1)
        (clock (version + m + 1)).verifiedAt) ↔
      ∀ m < n, (db.upgraded user clock version m).StepAccepted (version + m + 1)
        (clock (version + m + 1)) := by
  induction n with
  | zero => simp
  | succ n ih =>
    have ih := ih (by push_cast at hn; omega)
    simp only [Nat.lt_succ_iff_lt_or_eq, or_imp, forall_and, forall_eq, ih]
    refine and_congr_right fun haccepted => ?_
    have hlast : ∃ now', VersionInvariants phc (db.upgraded user clock version n) (version + n)
        now' := by
      cases n with
      | zero => exact ⟨now, by simpa [Database.upgraded] using h⟩
      | succ k =>
        refine ⟨(clock (version + k + 1)).verifiedAt, ?_⟩
        have hk := ih.mpr haccepted k (Nat.lt_succ_self k)
        rwa [show version + ((k + 1 : Nat) : Int) = version + k + 1 by push_cast; omega]
    obtain ⟨now', hlast⟩ := hlast
    push_cast at hn
    exact hlast.upgrade_iff (by omega) fun h₄ => huser (by omega)

end

end Blackglass
