import Blackglass.Authority
import Blackglass.MembershipBounds
import Blackglass.Vaults.Replacement
import Blackglass.Lib.Serial

/-!
# Share uids

The uid of a share is the id of its membership row.  Rows are pruned, go with their vault
and move to another one, and an invitation of somebody who is a member already answers with
the row that is there.  A uid still names one grant for ever, because the ids come from a
sequence that no request lowers and a revoked row is never made active again.  The ids that
were answered so far are kept as a list beside the database, which the code does not have.
-/

namespace Blackglass

open Rows Outcome Transition Serial

/-! ## One request -/

/-- The highest membership id ever given out. -/
def Database.lastShareUid (db : Database) : Int := (db.sequence "memberships").getD 0

/-- What happens to a row that stays: the user does not change, and a revoked row stays
revoked. -/
def MembershipRow.SameGrant (m m' : MembershipRow) : Prop :=
  m.userId = m'.userId ∧ (m'.active = true → m.active = true)

namespace MembershipRow.SameGrant

theorem refl (m : MembershipRow) : m.SameGrant m := ⟨rfl, fun h => h⟩

theorem trans {m m' m'' : MembershipRow} (h₁ : m.SameGrant m') (h₂ : m'.SameGrant m'') :
    m.SameGrant m'' := ⟨h₁.1.trans h₂.1, h₁.2 ∘ h₂.2⟩

end MembershipRow.SameGrant

/-- What a request does to the shares of a database. -/
def SharesAdvance (db db' : Database) : Prop :=
  Advance MembershipRow.id MembershipRow.SameGrant db.lastShareUid db.memberships
    db'.lastShareUid db'.memberships

section

variable {db db' : Database} {t : Readings} {request : Request} {answer : Answer}

theorem SharesAdvance.of_subset (hlast : db'.lastShareUid = db.lastShareUid)
    (hrows : db'.memberships ⊆ db.memberships) : SharesAdvance db db' :=
  Advance.of_subset MembershipRow.SameGrant.refl hlast.ge hrows

theorem SharesAdvance.refl (db : Database) : SharesAdvance db db :=
  .of_subset rfl (List.Subset.refl _)

theorem SharesAdvance.trans {db'' : Database} (h₁ : SharesAdvance db db')
    (h₂ : SharesAdvance db' db'') : SharesAdvance db db'' :=
  Advance.trans MembershipRow.SameGrant.trans h₁ h₂

/-- A row update that keeps the ids and the users and makes no row active. -/
theorem SharesAdvance.of_map {f : MembershipRow → MembershipRow}
    (hid : ∀ m, (f m).id = m.id) (hgrant : ∀ m : MembershipRow, m.SameGrant (f m))
    (hlast : db'.lastShareUid = db.lastShareUid)
    (hrows : db'.memberships ⊆ db.memberships.map f) : SharesAdvance db db' where
  counter := hlast.ge
  row m' hm' := by
    obtain ⟨m, hm, rfl⟩ := List.mem_map.mp (hrows hm')
    exact .inl ⟨m, hm, (hid m).symm, hgrant m⟩

theorem lastShareUid_commitRevision (row : RevisionRow) (content : Option Blob) :
    (db.commitRevision row content).lastShareUid = db.lastShareUid := by
  have hseq : ((setSequence db.sqliteSequence "revisions" db.nextRevisionUid).find?
        fun row => row.name = some "memberships").map (·.seq) =
      db.sequence "memberships" := find_setSequence_of_ne _ _ (by decide)
  cases content <;> exact congrArg (Option.getD · 0) hseq

theorem SharesAdvance.commitRevision (row : RevisionRow) (content : Option Blob) :
    SharesAdvance db (db.commitRevision row content) := by
  refine .of_subset (lastShareUid_commitRevision row content) ?_
  cases content <;> exact List.Subset.refl _

theorem lastShareUid_withMembership (row : MembershipRow) :
    (db.withMembership row).lastShareUid = db.nextMembershipId :=
  congrArg (Option.getD · 0) (find_setSequence_self db.sqliteSequence "memberships" _)

theorem lastShareUid_lt_nextMembershipId : db.lastShareUid < db.nextMembershipId :=
  getD_lt_nextRowid _ _

theorem SharesAdvance.withMembership (row : MembershipRow) :
    SharesAdvance db (db.withMembership row) where
  counter := by
    rw [lastShareUid_withMembership]
    exact lastShareUid_lt_nextMembershipId.le
  row m hm := by
    rcases List.mem_append.mp hm with hm | hm
    · exact .inl ⟨m, hm, rfl, .refl m⟩
    · rw [lastShareUid_withMembership, List.mem_singleton.mp hm]
      exact .inr ⟨lastShareUid_lt_nextMembershipId, le_rfl⟩

theorem SharesAdvance.pruneRevokedMemberships (vaultId : String) :
    SharesAdvance db (db.pruneRevokedMemberships vaultId) :=
  .of_subset rfl (List.filter_subset_self _)

theorem Effect.sharesAdvance (h : Effect db t request answer db') (hc : Constraints db) :
    SharesAdvance db db' := by
  cases h.written hc with
  | same => exact .refl _
  | created | bound | renamed | purged => exact .of_subset rfl (List.Subset.refl _)
  | deleted _ => exact .of_subset rfl (List.filter_subset_self _)
  | migrated =>
    refine .of_map (MembershipRow.moved_id _ _) (fun m => ⟨?_, ?_⟩) rfl
      (List.filter_subset_self _)
    · rw [MembershipRow.moved_userId]
    · rw [MembershipRow.moved_active]
      exact id
  | invited => exact (SharesAdvance.pruneRevokedMemberships _).trans (.withMembership _)
  | removed _ _ =>
    refine .of_map (MembershipRow.revoked_id _ _ _) (fun m => ⟨?_, ?_⟩) rfl (List.Subset.refl _)
    · rw [MembershipRow.revoked_userId]
    · rw [MembershipRow.revoked_active, Bool.and_eq_true]
      exact And.left
  | committed _ _ => exact .commitRevision _ _

/-- An invitation either finds the active row of the user and changes nothing, or gives out
an id above the sequence and adds an active row with it. -/
theorem share_of_invite {userId : Int} {tokenHash vaultId email : String} {item : VaultShareItem}
    (h : db.inviteCollaboratorForSession userId tokenHash vaultId email t = .ok (item, db')) :
    (db' = db ∨ db.lastShareUid < item.uid) ∧
      ∃ m ∈ db'.memberships, m.id = item.uid ∧ m.vaultId = vaultId ∧ m.active = true := by
  obtain ⟨-, -, ⟨m, hm, hid, hvault, hactive, rfl⟩ |
    ⟨target, -, -, -, -, -, -, -, huid, rfl⟩⟩ := inviteCollaboratorForSession_ok h
  · exact ⟨.inl rfl, m, hm, hid, hvault, hactive⟩
  · refine ⟨.inr ?_, _, List.mem_append_right _ (List.mem_singleton_self _), huid.symm, rfl, rfl⟩
    have hlast : (db.pruneRevokedMemberships vaultId).lastShareUid <
      (db.pruneRevokedMemberships vaultId).nextMembershipId := lastShareUid_lt_nextMembershipId
    rw [huid]
    exact hlast

end

/-! ## Runs -/

/-- The uid of a share that an answer gives to the client. -/
def Answer.shareUid? : Answer → Option Int
  | .share item => some item.uid
  | _ => none

/-- A database, and the share uids answered so far. -/
structure ShareState where
  store : Store
  issued : List Int

namespace ShareState

inductive Step (s : ShareState) : Request × Readings → ShareState → Prop where
  | commit {request t answer s'} : request.execute s.store.db t = .ok (answer, s'.store.db) →
      s'.issued = answer.shareUid?.toList ++ s.issued → Step s (request, t) s'
  | rollback {request t error} :
      request.execute s.store.db t = .error error → Step s (request, t) s

/-- The state after a request. -/
def next (s : ShareState) (request : Request) (t : Readings) : ShareState :=
  match h : request.execute s.store.db t with
  | .ok (answer, db) =>
    ⟨⟨db, (execute_ok h).constraints s.store.constraints⟩, answer.shareUid?.toList ++ s.issued⟩
  | .error _ => s

/-- Every request can be executed in every state. -/
theorem step_next (s : ShareState) (request : Request) (t : Readings) :
    s.Step (request, t) (s.next request t) := by
  unfold next
  split
  · rename_i h
    exact .commit h rfl
  · rename_i h
    exact .rollback h

/-- The sequence is not behind any id, in the table or answered, and no owner is a member of
their own vault: the start of a run is a database that `verify_membership_invariants`
accepts. -/
structure Recorded (s : ShareState) : Prop where
  issued : ∀ uid ∈ s.issued, uid ≤ s.store.db.lastShareUid
  rows : ∀ m ∈ s.store.db.memberships, m.id ≤ s.store.db.lastShareUid
  apart : s.store.db.OwnersApart

section

variable {s s' : ShareState} {a : Request × Readings} {requests : List (Request × Readings)}

theorem Step.sharesAdvance (h : Step s a s') : SharesAdvance s.store.db s'.store.db := by
  cases h with
  | commit hok _ => exact (execute_ok hok).sharesAdvance s.store.constraints
  | rollback _ => exact .refl _

theorem Recorded.step (hs : s.Recorded) (h : Step s a s') : s'.Recorded := by
  have hadvance := h.sharesAdvance
  have hrows := hadvance.bounded hs.rows
  cases h with
  | rollback _ => exact hs
  | @commit request t answer s' hok hissued =>
    have heffect := execute_ok hok
    have hc := s.store.constraints
    refine ⟨?_, hrows, (heffect.standing hc).ownersApart hc hs.apart⟩
    intro uid huid
    rw [hissued] at huid
    rcases List.mem_append.mp huid with hnew | hold
    · -- what is answered is in the table
      cases heffect with
      | inviteCollaborator hinvite =>
        obtain ⟨-, m, hm, hid, -⟩ := share_of_invite hinvite
        rw [List.mem_singleton.mp hnew, ← hid]
        exact hrows m hm
      | _ => cases hnew
    · exact (hs.issued uid hold).trans hadvance.counter

/-! ## One grant for ever -/

end

end ShareState

end Blackglass
