import Blackglass.Lib.Retention
import Blackglass.Recovery

/-!
# A recovery epoch as a renaming

`rotate_recovery_epoch` goes through the vaults one by one, and for each inserts a copy
under a new id, moves the revisions, and deletes the old row with what hangs on it.  Taken
together that is a renaming of vault ids (`Rotated`), except that memberships do not
survive their vault, and that the markers of an owner first make room for the new ones.
-/

namespace Blackglass

open Rows Outcome Retention

/-! ## Drawing the new identities -/

/-- The loop that draws candidates until `reserved.insert` accepts one, `n` times over.  The
candidates come from a random source; `none` is a source that ran dry in a loop. -/
def drawIds : List String → List String → Nat → Option (List String)
  | _, _, 0 => some []
  | [], _, _ + 1 => none
  | candidate :: candidates, reserved, n + 1 =>
    if candidate ∈ reserved then drawIds candidates reserved (n + 1)
    else (drawIds candidates (candidate :: reserved) n).map (candidate :: ·)

theorem drawIds_eq_some {candidates reserved ids : List String} {n : Nat}
    (h : drawIds candidates reserved n = some ids) :
    ids.length = n ∧ ids.Nodup ∧ (∀ id ∈ ids, id ∈ candidates) ∧ ∀ id ∈ ids, id ∉ reserved := by
  induction candidates generalizing reserved n ids with
  | nil =>
    cases n with
    | zero =>
      cases h
      simp
    | succ n => cases h
  | cons candidate candidates ih =>
    cases n with
    | zero =>
      cases h
      simp
    | succ n =>
      simp only [drawIds] at h
      split at h
      · obtain ⟨hlength, hnodup, hdrawn, hnew⟩ := ih h
        exact ⟨hlength, hnodup, fun id hid => List.mem_cons_of_mem _ (hdrawn id hid), hnew⟩
      · rename_i hfresh
        obtain ⟨rest, hrest, rfl⟩ := Option.map_eq_some_iff.mp h
        obtain ⟨hlength, hnodup, hdrawn, hnew⟩ := ih hrest
        refine ⟨by simp [hlength], List.nodup_cons.mpr ⟨fun hmem => ?_, hnodup⟩, ?_, ?_⟩
        · exact hnew _ hmem List.mem_cons_self
        · intro id hid
          rcases List.mem_cons.mp hid with rfl | hid
          · exact List.mem_cons_self
          · exact List.mem_cons_of_mem _ (hdrawn id hid)
        · intro id hid
          rcases List.mem_cons.mp hid with rfl | hid
          · exact hfresh
          · exact fun hres => hnew id hid (List.mem_cons_of_mem _ hres)

/-- `SELECT id FROM vaults UNION SELECT id FROM retired_vaults`. -/
def Database.reservedIds (db : Database) : List String :=
  db.vaults.map (·.id) ++ db.retiredVaults.map (·.id)

/-- One new identity for each vault, none of which was ever seen. -/
structure FreshIds (db : Database) (newIds : List String) : Prop where
  length : newIds.length = db.vaults.length
  nodup : newIds.Nodup
  notActive : ∀ id ∈ newIds, ∀ v ∈ db.vaults, v.id ≠ id
  notRetired : ∀ id ∈ newIds, ∀ r ∈ db.retiredVaults, r.id ≠ id

/-- What the loop draws is fresh. -/
theorem FreshIds.of_drawIds {db : Database} {candidates newIds : List String}
    (h : drawIds candidates db.reservedIds db.vaults.length = some newIds) :
    FreshIds db newIds := by
  obtain ⟨hlength, hnodup, -, hnew⟩ := drawIds_eq_some h
  refine ⟨hlength, hnodup, fun id hid v hv heq => ?_, fun id hid r hr heq => ?_⟩
  · exact hnew id hid (List.mem_append_left _ (heq ▸ List.mem_map_of_mem hv))
  · exact hnew id hid (List.mem_append_right _ (heq ▸ List.mem_map_of_mem hr))

/-! ## The renaming -/

/-- The id that a vault has after some replacements. -/
def rename (rs : List Replacement) (id : String) : String :=
  ((rs.find? fun r => r.oldId = id).map (·.newId)).getD id

def VaultRow.renamed (rs : List Replacement) (v : VaultRow) : VaultRow :=
  { v with id := rename rs v.id }

def RevisionRow.renamed (rs : List Replacement) (r : RevisionRow) : RevisionRow :=
  { r with vaultId := rename rs r.vaultId }

/-- The marker of a replaced vault. -/
def Replacement.marker (now : Int) (r : Replacement) : RetiredVaultRow :=
  { id := r.oldId, ownerUserId := r.ownerUserId, retiredAt := now }

theorem rename_of_notMem {rs : List Replacement} {id : String} (h : ∀ r ∈ rs, r.oldId ≠ id) :
    rename rs id = id := by
  have hnone : rs.find? (fun r => r.oldId = id) = none := by
    rw [List.find?_eq_none]
    intro r hr
    simpa using h r hr
  simp [rename, hnone]

theorem rename_of_mem {rs : List Replacement} (hold : (rs.map (·.oldId)).Nodup) {r : Replacement}
    (hr : r ∈ rs) : rename rs r.oldId = r.newId := by
  have hfind : rs.find? (fun s => s.oldId = r.oldId) = some r := find_key_of_mem hold hr
  simp [rename, hfind]

/-- A renamed id is the old one, or the new one of a replacement. -/
theorem rename_cases (rs : List Replacement) (id : String) :
    (∃ r ∈ rs, r.oldId = id ∧ rename rs id = r.newId) ∨
      (∀ r ∈ rs, r.oldId ≠ id) ∧ rename rs id = id := by
  by_cases h : ∃ r ∈ rs, r.oldId = id
  · obtain ⟨r, hr, hid⟩ := h
    cases hfind : rs.find? fun r => r.oldId = id with
    | none => exact absurd hid (by simpa using List.find?_eq_none.mp hfind r hr)
    | some s =>
      have hs := List.find?_some hfind
      exact .inl ⟨s, List.mem_of_find?_eq_some hfind, by simpa using hs, by simp [rename, hfind]⟩
  · have hall : ∀ r ∈ rs, r.oldId ≠ id := fun r hr hid => h ⟨r, hr, hid⟩
    exact .inr ⟨hall, rename_of_notMem hall⟩

/-- One more replacement, of an id that no earlier one has introduced. -/
theorem rename_snoc {rs : List Replacement} {r : Replacement}
    (hnew : ∀ s ∈ rs, s.newId ≠ r.oldId) (id : String) :
    rename (rs ++ [r]) id = if rename rs id = r.oldId then r.newId else rename rs id := by
  rcases rename_cases rs id with ⟨s, hs, hid, hrename⟩ | ⟨hall, hrename⟩
  · rw [hrename, if_neg (hnew s hs)]
    unfold rename at hrename ⊢
    cases hfind : rs.find? fun r => r.oldId = id with
    | none => exact absurd hid (by simpa using List.find?_eq_none.mp hfind s hs)
    | some t => simpa [List.find?_append, hfind] using hrename
  · have hfind : rs.find? (fun r => r.oldId = id) = none := by
      rw [List.find?_eq_none]
      intro s hs
      simpa using hall s hs
    rw [hrename]
    unfold rename
    rw [List.find?_append, hfind, Option.none_or]
    by_cases hr : r.oldId = id
    · simp [hr]
    · simp [hr, Ne.symm hr]

/-! ## The replacements of a database -/

section Replacements

variable {db : Database} {newIds : List String}

theorem map_zipWith_left {α β γ δ : Type} {f : α → β → γ} {g : γ → δ} {h : α → δ}
    (hg : ∀ a b, g (f a b) = h a) {xs : List α} {ys : List β} (hlength : ys.length = xs.length) :
    (List.zipWith f xs ys).map g = xs.map h := by
  induction xs generalizing ys with
  | nil => simp
  | cons x xs ih =>
    cases ys with
    | nil => cases hlength
    | cons y ys => simp [hg, ih (Nat.succ.inj hlength)]

theorem map_zipWith_right {α β γ : Type} {f : α → β → γ} {g : γ → β} (hg : ∀ a b, g (f a b) = b)
    {xs : List α} {ys : List β} (hlength : ys.length = xs.length) :
    (List.zipWith f xs ys).map g = ys := by
  induction xs generalizing ys with
  | nil => simp_all
  | cons x xs ih =>
    cases ys with
    | nil => cases hlength
    | cons y ys => simp [hg, ih (Nat.succ.inj hlength)]

/-- The vaults in the order in which they are replaced. -/
def Database.vaultsById (db : Database) : List VaultRow :=
  db.vaults.insertionSort fun a b => a.id ≤ b.id

theorem vaultsById_perm (db : Database) : db.vaultsById.Perm db.vaults :=
  List.perm_insertionSort _ _

theorem FreshIds.length_vaultsById (h : FreshIds db newIds) :
    newIds.length = db.vaultsById.length := by
  rw [(vaultsById_perm db).length_eq, h.length]

theorem FreshIds.map_oldId (h : FreshIds db newIds) :
    (db.replacements newIds).map (·.oldId) = db.vaultsById.map (·.id) :=
  map_zipWith_left (g := Replacement.oldId) (h := VaultRow.id) (fun _ _ => rfl) h.length_vaultsById

theorem FreshIds.map_newId (h : FreshIds db newIds) :
    (db.replacements newIds).map (·.newId) = newIds :=
  map_zipWith_right (fun _ _ => rfl) h.length_vaultsById

theorem FreshIds.nodup_oldId (h : FreshIds db newIds) (hc : Constraints db) :
    ((db.replacements newIds).map (·.oldId)).Nodup := by
  rw [h.map_oldId, ((vaultsById_perm db).map _).nodup_iff]
  exact hc.vaultId

theorem FreshIds.length_replacements (h : FreshIds db newIds) :
    (db.replacements newIds).length = db.vaults.length := by
  have := congrArg List.length h.map_oldId
  simpa [(vaultsById_perm db).length_eq] using this

/-- A replacement is of a vault. -/
theorem exists_of_mem_replacements {r : Replacement} (hr : r ∈ db.replacements newIds) :
    (∃ v ∈ db.vaults, v.id = r.oldId ∧ v.ownerUserId = r.ownerUserId) ∧ r.newId ∈ newIds := by
  obtain ⟨i, hi, rfl⟩ := List.getElem_of_mem hr
  unfold Database.replacements at hi ⊢
  have hbounds := hi
  rw [List.length_zipWith, lt_min_iff] at hbounds
  rw [List.getElem_zipWith]
  refine ⟨⟨_, (vaultsById_perm db).mem_iff.mp (List.getElem_mem hbounds.1), rfl, rfl⟩,
    List.getElem_mem hbounds.2⟩

/-- Every vault is replaced. -/
theorem FreshIds.exists_replacement (h : FreshIds db newIds) {v : VaultRow} (hv : v ∈ db.vaults) :
    ∃ r ∈ db.replacements newIds, r.oldId = v.id := by
  have hmem : v.id ∈ (db.replacements newIds).map (·.oldId) := by
    rw [h.map_oldId]
    exact List.mem_map_of_mem ((vaultsById_perm db).mem_iff.mpr hv)
  exact List.mem_map.mp hmem

/-- New ids are not old ones. -/
theorem FreshIds.newId_ne_oldId (h : FreshIds db newIds) {r s : Replacement}
    (hr : r ∈ db.replacements newIds) (hs : s ∈ db.replacements newIds) : r.newId ≠ s.oldId := by
  obtain ⟨⟨v, hv, hid, -⟩, -⟩ := exists_of_mem_replacements hs
  exact fun heq => h.notActive _ (exists_of_mem_replacements hr).2 v hv (hid.trans heq.symm)

end Replacements

/-! ## The loop over the vaults -/

/-- A database some of whose vaults have got their new identities. -/
structure RotatedBy (base : Database) (now : Int) (done : List Replacement) (db : Database) :
    Prop where
  vaults : db.vaults.Perm (base.vaults.map (.renamed done))
  revisions : db.revisions = base.revisions.map (.renamed done)
  revisionContent : db.revisionContent = base.revisionContent
  memberships : db.memberships =
    base.memberships.filter fun m => done.all fun r => r.oldId ≠ m.vaultId
  retiredVaults : db.retiredVaults = base.retiredVaults ++ done.map (Replacement.marker now)
  users : db.users = base.users
  sqliteSequence : db.sqliteSequence = base.sqliteSequence
  serverSettings : db.serverSettings = base.serverSettings
  tables : db.tables = base.tables
  schemaMigrations : db.schemaMigrations = base.schemaMigrations
  constraints : Constraints db

theorem RotatedBy.refl {base : Database} (hc : Constraints base) (now : Int) :
    RotatedBy base now [] base where
  vaults := by
    have hid : (VaultRow.renamed [] : VaultRow → VaultRow) = id := rfl
    rw [hid, List.map_id]
  revisions := by
    have hid : (RevisionRow.renamed [] : RevisionRow → RevisionRow) = id := rfl
    rw [hid, List.map_id]
  revisionContent := rfl
  memberships := by simp
  retiredVaults := by simp
  users := rfl
  sqliteSequence := rfl
  serverSettings := rfl
  tables := rfl
  schemaMigrations := rfl
  constraints := hc

/-- The copy of a vault under a new id takes the place of the old row. -/
theorem replaced_perm {vaults : List VaultRow} {v : VaultRow} {newId : String}
    (hids : (vaults.map (·.id)).Nodup) (hv : v ∈ vaults) (hne : newId ≠ v.id) :
    ((vaults ++ [{ v with id := newId }]).filter fun w : VaultRow => !decide (w.id = v.id)).Perm
      (vaults.map fun w : VaultRow => if w.id = v.id then { w with id := newId } else w) := by
  obtain ⟨before, after, rfl⟩ := List.append_of_mem hv
  have hother : ∀ w ∈ before ++ after, w.id ≠ v.id := by
    rw [List.map_append, List.map_cons, List.nodup_middle] at hids
    intro w hw heq
    exact (List.nodup_cons.mp hids).1
      (by rw [← List.map_append, ← heq]; exact List.mem_map_of_mem hw)
  have hkeep : ∀ ws : List VaultRow, (∀ w ∈ ws, w.id ≠ v.id) →
      (ws.filter fun w : VaultRow => !decide (w.id = v.id)) = ws ∧
        (ws.map fun w : VaultRow => if w.id = v.id then { w with id := newId } else w) = ws := by
    intro ws hws
    refine ⟨List.filter_eq_self.mpr fun w hw => by simp [hws w hw], ?_⟩
    exact (List.map_congr_left fun w hw => if_neg (hws w hw)).trans (List.map_id' ws)
  obtain ⟨hb, hb'⟩ := hkeep before fun w hw => hother w (List.mem_append_left _ hw)
  obtain ⟨ha, ha'⟩ := hkeep after fun w hw => hother w (List.mem_append_right _ hw)
  simp only [List.filter_append, List.filter_cons, List.filter_nil, List.map_append, List.map_cons,
    hb, hb', ha, ha', hne, decide_true, decide_false, Bool.not_true, Bool.not_false,
    Bool.false_eq_true, if_false, if_true, List.append_assoc]
  exact (List.perm_append_left_iff _).mpr (List.perm_append_singleton _ _)

theorem RotatedBy.step {base db db' : Database} {now : Int} {done rest rs : List Replacement}
    {r : Replacement} (hrs : rs = done ++ r :: rest)
    (hold : (rs.map (·.oldId)).Nodup) (hnew : ∀ a ∈ rs, ∀ b ∈ rs, a.newId ≠ b.oldId)
    (hretired : ∀ a ∈ rs, ∀ m ∈ base.retiredVaults, m.id ≠ a.oldId)
    (h : RotatedBy base now done db) (hok : Database.rotateVault now db r = .ok db') :
    RotatedBy base now (done ++ [r]) db' := by
  have hr : r ∈ rs := by rw [hrs]; simp
  have hdone : ∀ s ∈ done, s ∈ rs := fun s hs => by rw [hrs]; simp [hs]
  have hearlier : ∀ s ∈ done, s.oldId ≠ r.oldId := by
    rw [hrs, List.map_append, List.map_cons] at hold
    intro s hs heq
    exact (List.disjoint_of_nodup_append hold) (List.mem_map_of_mem hs) (heq ▸ List.mem_cons_self)
  have hrename : ∀ id, rename (done ++ [r]) id =
      if rename done id = r.oldId then r.newId else rename done id :=
    rename_snoc fun s hs => hnew s (hdone s hs) r hr
  obtain ⟨howner, v, hv, hfresh, huser, rfl⟩ := rotateVault_ok hok
  obtain ⟨hmem, hid⟩ := mem_of_vault? hv
  have hne : r.newId ≠ r.oldId := hnew r hr r hr
  refine { h with vaults := ?_, revisions := ?_, revisionContent := ?_, memberships := ?_,
                  retiredVaults := ?_, constraints := ?_ }
  · have hstep : base.vaults.map (VaultRow.renamed (done ++ [r])) =
        (base.vaults.map (VaultRow.renamed done)).map fun w =>
          if w.id = v.id then { w with id := r.newId } else w := by
      rw [List.map_map]
      refine List.map_congr_left fun w _ => ?_
      simp only [Function.comp_apply, VaultRow.renamed, hrename, hid]
      by_cases hw : rename done w.id = r.oldId <;> simp [hw]
    rw [hstep]
    refine List.Perm.trans ?_ (h.vaults.map _)
    have hne' : r.newId ≠ v.id := hid ▸ hne
    have hreplaced := replaced_perm h.constraints.vaultId hmem hne'
    rw [hid] at hreplaced ⊢
    exact hreplaced
  · rw [withRotatedVault_revisions db r v now hne, h.revisions, List.map_map]
    refine List.map_congr_left fun s _ => ?_
    simp only [Function.comp_apply, RevisionRow.renamed, RevisionRow.moved, hrename]
    by_cases hs : rename done s.vaultId = r.oldId <;> simp [hs]
  · rw [withRotatedVault_revisionContent db r v now hne, h.revisionContent]
  · have hcascade : (db.withRotatedVault r v now).memberships =
        db.memberships.filter fun m => r.oldId ≠ m.vaultId := by
      refine List.filter_congr fun m _ => ?_
      have hany : ((db.vaults ++ [{ v with id := r.newId }]).any fun w =>
          decide (w.id = r.oldId) && decide (w.id = m.vaultId)) = decide (r.oldId = m.vaultId) := by
        rw [Bool.eq_iff_iff]
        simp only [List.any_eq_true, Bool.and_eq_true, decide_eq_true_eq]
        constructor
        · rintro ⟨w, -, hw, hwm⟩
          exact hw.symm.trans hwm
        · intro heq
          exact ⟨v, List.mem_append_left _ hmem, hid, hid.trans heq⟩
      exact congrArg (!·) hany |>.trans (by simp)
    rw [hcascade, h.memberships, List.filter_filter]
    refine List.filter_congr fun m _ => ?_
    simp [List.all_append, Bool.and_comm]
  · have hkept : (db.retiredVaults.filter fun m => m.id ≠ r.oldId) = db.retiredVaults := by
      refine List.filter_eq_self.mpr fun m hm => ?_
      rw [h.retiredVaults] at hm
      rcases List.mem_append.mp hm with hm | hm
      · simpa using hretired r hr m hm
      · obtain ⟨s, hs, rfl⟩ := List.mem_map.mp hm
        exact decide_eq_true (hearlier s hs)
    show (db.retiredVaults.filter fun m => m.id ≠ r.oldId) ++ [r.marker now] = _
    rw [hkept, h.retiredVaults, List.map_append, List.append_assoc]
    rfl
  · exact h.constraints.withRotatedVault howner hfresh huser

/-! ## Making room -/

/-- The markers of one owner. -/
def ownedBy (ownerUserId : Int) (r : RetiredVaultRow) : Bool := r.ownerUserId = ownerUserId

/-- What pruning leaves of the markers. -/
abbrev retainMarkers (ownerUserId : Int) (keep : Nat) (rows : List RetiredVaultRow) :
    List RetiredVaultRow :=
  retain RetiredVaultRow.newerThan (ownedBy ownerUserId) (·.id) keep rows

theorem pruneRetiredVaults_eq (db : Database) (ownerUserId keep : Int) :
    db.pruneRetiredVaults ownerUserId keep =
      { db with retiredVaults := retainMarkers ownerUserId keep.toNat db.retiredVaults } := rfl

/-- How many vaults of an owner are replaced. -/
def replacedOf (rs : List Replacement) (ownerUserId : Int) : Nat :=
  (rs.filter fun r => r.ownerUserId = ownerUserId).length

/-- The markers of some owners have made room. -/
structure RoomMade (rs : List Replacement) (base : Database) (done : List Int) (db : Database) :
    Prop where
  frame : db = { base with retiredVaults := db.retiredVaults }
  sublist : db.retiredVaults.Sublist base.retiredVaults
  pruned : ∀ owner ∈ done, (replacedOf rs owner : Int) ≤ maxRetiredVaultsPerOwner ∧
    db.retiredVaults.filter (ownedBy owner) = (retainMarkers owner
      (maxRetiredVaultsPerOwner - replacedOf rs owner).toNat base.retiredVaults).filter
        (ownedBy owner)
  kept : ∀ owner ∉ done,
    db.retiredVaults.filter (ownedBy owner) = base.retiredVaults.filter (ownedBy owner)

theorem ownedBy_disjoint {owner other : Int} (hne : owner ≠ other) (r : RetiredVaultRow)
    (h : ownedBy owner r = true) : ownedBy other r = false := by
  simp only [ownedBy, decide_eq_true_eq, decide_eq_false_iff_not] at h ⊢
  exact fun hother => hne (h.symm.trans hother)

theorem RoomMade.step {rs : List Replacement} {base db db' : Database} {done : List Int}
    {owner : Int} (hnew : owner ∉ done) (h : RoomMade rs base done db)
    (hok : Database.makeRoom rs db owner = .ok db') : RoomMade rs base (done ++ [owner]) db' := by
  have hcount : (replacedOf rs owner : Int) ≤ maxRetiredVaultsPerOwner := by
    simp only [Database.makeRoom, bind_eq_ok, rejectIf_eq_ok, exists_unit, not_lt] at hok
    exact hok.1
  rw [makeRoom_ok hok, pruneRetiredVaults_eq]
  refine ⟨?_, retain_sublist.trans h.sublist, fun other hother => ?_, fun other hother => ?_⟩
  · rw [h.frame]
  · by_cases heq : other = owner
    · subst heq
      exact ⟨hcount, filter_retain_congr (h.kept other hnew)⟩
    · have hdone : other ∈ done := by simpa [heq] using hother
      rw [filter_retain_of_disjoint (ownedBy_disjoint heq)]
      exact h.pruned other hdone
  · simp only [List.mem_append, List.mem_singleton, not_or] at hother
    rw [filter_retain_of_disjoint (ownedBy_disjoint hother.2)]
    exact h.kept other hother.1

/-! ## The whole rotation -/

/-- What a rotation with the replacements `rs` at time `now` has done. -/
structure Rotated (base : Database) (rs : List Replacement) (now : Int) (db : Database) :
    Prop where
  vaults : db.vaults.Perm (base.vaults.map (.renamed rs))
  revisions : db.revisions = base.revisions.map (.renamed rs)
  revisionContent : db.revisionContent = base.revisionContent
  memberships : db.memberships = []
  sessions : db.sessions = []
  users : db.users = base.users
  sqliteSequence : db.sqliteSequence = base.sqliteSequence
  serverSettings : db.serverSettings = base.serverSettings
  tables : db.tables = base.tables
  schemaMigrations : db.schemaMigrations = base.schemaMigrations
  /-- The markers are what was kept of the earlier ones, and one for each vault. -/
  retiredVaults : ∃ kept, db.retiredVaults = kept ++ rs.map (Replacement.marker now) ∧
    kept.Sublist base.retiredVaults ∧ ((kept.length + rs.length : Nat) : Int) ≤ maxRetiredVaults ∧
    (∀ owner ∈ rs.map (·.ownerUserId), (replacedOf rs owner : Int) ≤ maxRetiredVaultsPerOwner ∧
      kept.filter (ownedBy owner) = (retainMarkers owner
        (maxRetiredVaultsPerOwner - replacedOf rs owner).toNat base.retiredVaults).filter
          (ownedBy owner)) ∧
    ∀ owner ∉ rs.map (·.ownerUserId),
      kept.filter (ownedBy owner) = base.retiredVaults.filter (ownedBy owner)

theorem rotated_of_ok {db db' : Database} {newIds : List String} {now : Int} {n : Nat}
    (hc : Constraints db) (hfresh : FreshIds db newIds)
    (hdisjoint : ∀ r ∈ db.retiredVaults, db.hasVault r.id = false)
    (hok : db.rotateRecoveryEpoch newIds now = .ok (n, db')) :
    Rotated db (db.replacements newIds) now db' := by
  set rs := db.replacements newIds with hrs
  simp only [Database.rotateRecoveryEpoch, bind_eq_ok, rejectIf_eq_ok, exists_unit, pure_eq_ok,
    Prod.mk.injEq, not_lt, ← hrs] at hok
  obtain ⟨db₁, hroom, hcap, db₂, hrotate, -, rfl⟩ := hok
  have hmade : RoomMade rs db (rs.map (·.ownerUserId)).dedup db₁ := by
    refine foldlM_induction (P := RoomMade rs db) ?_ ⟨rfl, List.Sublist.refl _, by simp, by simp⟩
      hroom
    intro done owner rest s s' hlist hP hstep
    refine hP.step ?_ hstep
    have hnodup := List.nodup_dedup (rs.map (·.ownerUserId))
    rw [hlist] at hnodup
    exact fun hin => List.disjoint_of_nodup_append hnodup hin List.mem_cons_self
  have hbase : db₁.vaults = db.vaults ∧ db₁.revisions = db.revisions ∧
      db₁.revisionContent = db.revisionContent ∧ db₁.memberships = db.memberships ∧
      db₁.users = db.users ∧ db₁.sqliteSequence = db.sqliteSequence ∧
      db₁.serverSettings = db.serverSettings ∧ db₁.tables = db.tables ∧
      db₁.schemaMigrations = db.schemaMigrations := by
    rw [hmade.frame]
    exact ⟨rfl, rfl, rfl, rfl, rfl, rfl, rfl, rfl, rfl⟩
  have hc₁ : Constraints db₁ := by
    rw [hmade.frame]
    exact { hc with
      retiredId := hc.retiredId.sublist (hmade.sublist.map _)
      retiredOwner := fun r hr => hc.retiredOwner r (hmade.sublist.subset hr) }
  have hrotated : RotatedBy db₁ now rs db₂ := by
    refine foldlM_induction (P := RotatedBy db₁ now) ?_ (.refl hc₁ now) hrotate
    intro done r rest s s' hlist hP hstep
    refine hP.step hlist (hfresh.nodup_oldId hc)
      (fun a ha b hb => hfresh.newId_ne_oldId ha hb) (fun a ha m hm heq => ?_) hstep
    obtain ⟨⟨v, hv, hid, -⟩, -⟩ := exists_of_mem_replacements ha
    have hnone := hasVault_eq_false_iff.mp (hdisjoint m (hmade.sublist.subset hm)) v hv
    exact hnone (hid.trans heq.symm)
  obtain ⟨hv, hr, hcontent, hm, hu, hq, hset, ht, hmig⟩ := hbase
  refine ⟨hv ▸ hrotated.vaults, hr ▸ hrotated.revisions, hcontent ▸ hrotated.revisionContent, ?_,
    rfl, hu ▸ hrotated.users, hq ▸ hrotated.sqliteSequence, hset ▸ hrotated.serverSettings,
    ht ▸ hrotated.tables, hmig ▸ hrotated.schemaMigrations, db₁.retiredVaults,
    hrotated.retiredVaults, hmade.sublist, by exact_mod_cast hcap,
    fun owner ho => hmade.pruned owner (List.mem_dedup.mpr ho),
    fun owner ho => hmade.kept owner (mt List.mem_dedup.mp ho)⟩
  -- every membership is of a vault, and every vault was replaced
  show db₂.memberships = []
  rw [hrotated.memberships, hm, List.filter_eq_nil_iff]
  intro m hmem
  obtain ⟨v, hv, hid⟩ := hasVault_iff.mp (hc.membershipVault m hmem)
  obtain ⟨r, hr, hold⟩ := hfresh.exists_replacement hv
  simp only [List.all_eq_true, decide_eq_true_eq, not_forall]
  exact ⟨r, hr, fun hne => hne (hold.trans hid)⟩

/-! ## A rotation that succeeds -/

theorem rotateVault_of {db : Database} {r : Replacement} {v : VaultRow} {now : Int}
    (howner : db.hasUser r.ownerUserId = true) (hv : db.vault? r.oldId = some v)
    (hfresh : db.hasVault r.newId = false) (huser : db.hasUser v.ownerUserId = true)
    (hoffline : db.runtimeStorageUsage = none) :
    Database.rotateVault now db r = .ok (db.withRotatedVault r v now) := by
  have hadded : ((db.withRetiredVault (r.marker now)).withVault
      { v with id := r.newId }).hasVault r.newId = true :=
    hasVault_iff.mpr ⟨{ v with id := r.newId }, List.mem_append_right _ (by simp), rfl⟩
  simp only [Database.rotateVault, Database.replaceRetiredVault, Database.insertVault,
    Database.updateRevisionVaults, Database.deleteVaults, bind_eq_ok, orReject_eq_ok,
    rejectIf_eq_ok, exists_unit, pure_eq_ok]
  refine ⟨db.withRetiredVault (r.marker now), ⟨?_, rfl⟩, v, hv, _, ⟨?_, rfl⟩, _, ⟨?_, rfl⟩, ?_, rfl⟩
  · simp [howner]
  · have hfresh' : (db.withRetiredVault (r.marker now)).hasVault r.newId = false := hfresh
    have huser' : (db.withRetiredVault (r.marker now)).hasUser v.ownerUserId = true := huser
    simp [hfresh', huser']
  · simp [hadded]
  · simp [Database.runtimeStorageRejects, hoffline]

/-- The next vault can be replaced. -/
theorem RotatedBy.succeeds {base db : Database} {now : Int} {newIds : List String}
    {done rest : List Replacement} {r : Replacement} (hc : Constraints base)
    (hfresh : FreshIds base newIds) (hrs : base.replacements newIds = done ++ r :: rest)
    (h : RotatedBy base now done db) (hoffline : db.runtimeStorageUsage = none) :
    ∃ v, Database.rotateVault now db r = .ok (db.withRotatedVault r v now) := by
  have hr : r ∈ base.replacements newIds := by rw [hrs]; simp
  have hdone : ∀ s ∈ done, s ∈ base.replacements newIds := fun s hs => by rw [hrs]; simp [hs]
  obtain ⟨⟨v, hv, hid, howner⟩, -⟩ := exists_of_mem_replacements hr
  have hold := hfresh.nodup_oldId hc
  have hnew : ((base.replacements newIds).map (·.newId)).Nodup := by
    rw [hfresh.map_newId]
    exact hfresh.nodup
  rw [hrs, List.map_append, List.map_cons] at hold hnew
  have hkept : rename done v.id = v.id := by
    refine rename_of_notMem fun s hs heq => ?_
    exact List.disjoint_of_nodup_append hold (List.mem_map_of_mem hs)
      (heq.trans hid ▸ List.mem_cons_self)
  have hmem : v ∈ db.vaults := by
    refine h.vaults.mem_iff.mpr (List.mem_map.mpr ⟨v, hv, ?_⟩)
    rw [VaultRow.renamed, hkept]
  have huser : db.hasUser v.ownerUserId = true := h.constraints.vaultOwner v hmem
  refine ⟨v, rotateVault_of (howner ▸ huser) (hid ▸ h.constraints.vault?_eq hmem) ?_ huser hoffline⟩
  rw [hasVault_eq_false_iff]
  intro w hw heq
  obtain ⟨u, hu, rfl⟩ := List.mem_map.mp (h.vaults.mem_iff.mp hw)
  have heq : rename done u.id = r.newId := heq
  rcases rename_cases done u.id with ⟨s, hs, -, hrename⟩ | ⟨-, hrename⟩
  · exact List.disjoint_of_nodup_append hnew (List.mem_map_of_mem hs)
      (hrename.symm.trans heq ▸ List.mem_cons_self)
  · exact hfresh.notActive _ (exists_of_mem_replacements hr).2 u hu (hrename.symm.trans heq)

/-- With room for all markers, a rotation of a file succeeds. -/
theorem rotateRecoveryEpoch_succeeds {db : Database} {newIds : List String} {now : Int}
    (hc : Constraints db) (hfresh : FreshIds db newIds)
    (hdisjoint : ∀ r ∈ db.retiredVaults, db.hasVault r.id = false)
    (hoffline : db.runtimeStorageUsage = none)
    (howner : (db.vaults.length : Int) ≤ maxRetiredVaultsPerOwner)
    (htotal : (db.retiredVaults.length : Int) + db.vaults.length ≤ maxRetiredVaults) :
    ∃ n db', db.rotateRecoveryEpoch newIds now = .ok (n, db') := by
  set rs := db.replacements newIds with hrs
  have hlength : rs.length = db.vaults.length := hfresh.length_replacements
  obtain ⟨db₁, hroom, hmade⟩ : ∃ db₁, (rs.map (·.ownerUserId)).dedup.foldlM
      (Database.makeRoom rs) db = .ok db₁ ∧ RoomMade rs db (rs.map (·.ownerUserId)).dedup db₁ := by
    refine foldlM_succeeds (P := RoomMade rs db) ?_ ⟨rfl, List.Sublist.refl _, by simp, by simp⟩
    intro done owner rest s hlist hP
    have hcount := List.length_filter_le (fun r => decide (r.ownerUserId = owner)) rs
    obtain ⟨s', hstep⟩ : ∃ s', Database.makeRoom rs s owner = .ok s' := by
      simp only [Database.makeRoom, bind_eq_ok, rejectIf_eq_ok, exists_unit, pure_eq_ok, not_lt]
      exact ⟨_, by omega, rfl⟩
    refine ⟨s', hstep, hP.step ?_ hstep⟩
    have hnodup := List.nodup_dedup (rs.map (·.ownerUserId))
    rw [hlist] at hnodup
    exact fun hin => List.disjoint_of_nodup_append hnodup hin List.mem_cons_self
  have hframe := hmade.frame
  have hrs₁ : db₁.replacements newIds = rs := by
    rw [hframe]
    rfl
  have hc₁ : Constraints db₁ := by
    rw [hframe]
    exact { hc with
      retiredId := hc.retiredId.sublist (hmade.sublist.map _)
      retiredOwner := fun r hr => hc.retiredOwner r (hmade.sublist.subset hr) }
  have hfresh₁ : FreshIds db₁ newIds := by
    rw [hframe]
    exact ⟨hfresh.length, hfresh.nodup, hfresh.notActive,
      fun id hid r hr => hfresh.notRetired id hid r (hmade.sublist.subset hr)⟩
  have hoffline₁ : db₁.runtimeStorageUsage = none := by
    rw [hframe]
    exact hoffline
  obtain ⟨db₂, hrotate, -⟩ : ∃ db₂, rs.foldlM (Database.rotateVault now) db₁ = .ok db₂ ∧
      (RotatedBy db₁ now rs db₂ ∧ db₂.runtimeStorageUsage = none) := by
    refine foldlM_succeeds (P := fun done s => RotatedBy db₁ now done s ∧
      s.runtimeStorageUsage = none) ?_ ⟨.refl hc₁ now, hoffline₁⟩
    rintro done r rest s hlist ⟨hP, hnone⟩
    obtain ⟨v, hstep⟩ := hP.succeeds hc₁ hfresh₁ (hrs₁.trans hlist) hnone
    refine ⟨_, hstep, hP.step hlist (hfresh.nodup_oldId hc)
      (fun a ha b hb => hfresh.newId_ne_oldId ha hb) (fun a ha m hm heq => ?_) hstep, ?_⟩
    · obtain ⟨⟨w, hw, hid, -⟩, -⟩ := exists_of_mem_replacements ha
      exact hasVault_eq_false_iff.mp (hdisjoint m (hmade.sublist.subset hm)) w hw
        (hid.trans heq.symm)
    · show Option.map _ s.runtimeStorageUsage = none
      rw [hnone]
      rfl
  have hcap := hmade.sublist.length_le
  refine ⟨rs.length, { db₂ with sessions := [] }, ?_⟩
  simp only [Database.rotateRecoveryEpoch, bind_eq_ok, rejectIf_eq_ok, exists_unit, pure_eq_ok,
    not_lt, ← hrs]
  exact ⟨db₁, hroom, by omega, db₂, hrotate, rfl⟩

end Blackglass
