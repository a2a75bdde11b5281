import Blackglass.Accounts
import Blackglass.Verify

/-!
# Dead tokens

Whether a token is accepted depends on two tables: its session must be unrevoked and
unexpired, and the session's user active.  Status alone can come back, since an account
may be enabled again.  What makes a dead token stay dead is that the two tables are
linked: an unrevoked session always belongs to an active user (`Sound`), so a token that
is refused is refused for its session, and no operation repairs a session.
-/

namespace Blackglass

open Outcome Transition

/-- An unrevoked session belongs to an active user. -/
def Database.Linked (db : Database) : Prop :=
  ∀ r ∈ db.sessions, r.revokedAt = none → db.activeUser r.userId = true

/-- None of these sessions makes the token valid. -/
def Dead (sessions : List SessionRow) (tokenHash : String) (now : Int) : Prop :=
  ∀ r ∈ sessions, r.tokenHash = tokenHash → r.live now = false

/-- A stored database with what a run remembers of its past: the last reading of the
clock, and the hashes of the tokens drawn so far. -/
structure TokenState where
  store : Store
  clock : Int
  issued : List String

namespace TokenState

/-- One operation, at a reading that is not before the last one, with a token that was
never drawn before. -/
inductive Step (phc : PhcParser) (s : TokenState) : AccountOperation × Int → TokenState → Prop where
  | account {op : AccountOperation} {now : Int} {store' : Store} :
      s.clock ≤ now → (∀ tokenHash ∈ op.issues?, tokenHash ∉ s.issued) →
      s.store.Account phc (op, now) store' →
      Step phc s (op, now) ⟨store', now, op.issues?.toList ++ s.issued⟩

/-- The two tables are linked, and every session belongs to a drawn token. -/
structure Sound (s : TokenState) : Prop where
  linked : s.store.db.Linked
  issued : ∀ r ∈ s.store.db.sessions, r.tokenHash ∈ s.issued

end TokenState

/-! ## Active users through a change -/

section ActiveUser

variable {db : Database} {userId now : Int} {change : UserChange}

theorem activeUser_updateUser_of_ne {id : Int} (hne : id ≠ userId)
    (h : db.activeUser id = true) :
    (db.updateUser userId (change.apply now)).activeUser id = true := by
  obtain ⟨u, hu, hid, hactive⟩ := activeUser_iff.mp h
  refine activeUser_iff.mpr ⟨u, List.mem_map.mpr ⟨u, hu, ?_⟩, hid, hactive⟩
  exact if_neg (hid ▸ hne)

theorem activeUser_updateUser_of_not_revokes {id : Int} (hrevokes : change.revokes = false)
    (h : db.activeUser id = true) :
    (db.updateUser userId (change.apply now)).activeUser id = true := by
  obtain ⟨u, hu, hid, hactive⟩ := activeUser_iff.mp h
  by_cases hne : u.id = userId
  · refine activeUser_iff.mpr ⟨change.apply now u, List.mem_map.mpr ⟨u, hu, if_pos hne⟩, ?_, ?_⟩
    · rw [UserChange.apply_id, hid]
    · exact UserChange.active_of_not_revokes hrevokes hactive
  · exact activeUser_updateUser_of_ne (hid ▸ hne) h

theorem activeUser_withUser {id : Int} {row : UserRow} (h : db.activeUser id = true) :
    (db.withUser row).activeUser id = true := by
  obtain ⟨u, hu, hid, hactive⟩ := activeUser_iff.mp h
  exact activeUser_iff.mpr ⟨u, List.mem_append_left _ hu, hid, hactive⟩

end ActiveUser

/-! ## Sessions through a change -/

theorem mem_revokeSessions {db : Database} {now : Int} {p : SessionRow → Bool} {r : SessionRow}
    (h : r ∈ (db.revokeSessions now p).sessions) :
    ∃ s ∈ db.sessions, r.tokenHash = s.tokenHash ∧ r.userId = s.userId ∧
      (r = s ∧ p s = false ∨ r.revokedAt ≠ none) := by
  obtain ⟨s, hs, rfl⟩ := List.mem_map.mp h
  refine ⟨s, hs, ?_⟩
  by_cases hp : p s = true
  · simp [hp]
  · simp [hp]

theorem mem_renewSession {db : Database} {tokenHash : String} {ttlSecs now : Int}
    {authorized : SessionRow → Bool} {r : SessionRow}
    (h : r ∈ (db.renewSession tokenHash ttlSecs now authorized).sessions) :
    ∃ s ∈ db.sessions, r.tokenHash = s.tokenHash ∧ r.userId = s.userId ∧
      r.revokedAt = s.revokedAt ∧ (r = s ∨ s.live now = true) := by
  obtain ⟨s, hs, rfl⟩ := List.mem_map.mp h
  refine ⟨s, hs, ?_⟩
  split
  · rename_i hrenew
    simp only [Database.renewable, Bool.and_eq_true, decide_eq_true_eq] at hrenew
    exact ⟨rfl, rfl, rfl, .inr (by simp [SessionRow.live, hrenew.1.1.1.2, hrenew.1.2])⟩
  · exact ⟨rfl, rfl, rfl, .inl rfl⟩

/-- A row that is not live now is not live later. -/
theorem SessionRow.live_antitone {s : SessionRow} {t t' : Int} (hle : t ≤ t')
    (h : s.live t = false) : s.live t' = false := by
  simp only [SessionRow.live, Bool.and_eq_false_iff, decide_eq_false_iff_not] at h ⊢
  refine h.imp_left ?_
  omega

/-! ## One operation -/

section Operation

variable {phc : PhcParser} {db db' : Database} {now : Int} {op : AccountOperation}

/-- Where unrevoked sessions are old ones and users stay active, the link is kept. -/
theorem Database.Linked.transport (h : db.Linked)
    (hold : ∀ r ∈ db'.sessions, r.revokedAt = none →
      ∃ q ∈ db.sessions, q.revokedAt = none ∧ q.userId = r.userId)
    (hactive : ∀ r ∈ db'.sessions, r.revokedAt = none → db.activeUser r.userId = true →
      db'.activeUser r.userId = true) : db'.Linked := by
  intro r hr hnone
  obtain ⟨q, hq, hq_none, huser⟩ := hold r hr hnone
  exact hactive r hr hnone (huser ▸ h q hq hq_none)

theorem exists_of_mem_revokeSessions {p : SessionRow → Bool} {r : SessionRow}
    (h : r ∈ (db.revokeSessions now p).sessions) (hnone : r.revokedAt = none) :
    r ∈ db.sessions ∧ p r = false := by
  obtain ⟨q, hq, -, -, ⟨rfl, hkept⟩ | hrevoked⟩ := mem_revokeSessions h
  · exact ⟨hq, hkept⟩
  · exact absurd hnone hrevoked

theorem Database.Linked.revokeSessions (h : db.Linked) (p : SessionRow → Bool) :
    (db.revokeSessions now p).Linked :=
  fun r hr hnone => h r (exists_of_mem_revokeSessions hr hnone).1 hnone

theorem Database.Linked.renewSession (h : db.Linked) (tokenHash : String) (ttlSecs : Int)
    (authorized : SessionRow → Bool) :
    (db.renewSession tokenHash ttlSecs now authorized).Linked := by
  intro r hr hnone
  obtain ⟨q, hq, -, huser, hrevoked, -⟩ := mem_renewSession hr
  exact huser ▸ h q hq (hrevoked ▸ hnone)

theorem Database.Linked.issueSessionForUser (h : db.Linked) {tokenHash : String}
    {userId ttlSecs : Int} (hok : db.issueSessionForUser tokenHash userId ttlSecs now = .ok db') :
    db'.Linked := by
  simp only [Database.issueSessionForUser, bind_eq_ok, rejectIf_eq_ok, exists_unit, pure_eq_ok,
    Bool.not_eq_false] at hok
  obtain ⟨-, huser, -, -, rfl⟩ := hok
  intro r hr hnone
  rcases List.mem_append.mp hr with hr | hr
  · exact h r (List.mem_of_mem_filter hr) hnone
  · rw [List.mem_singleton.mp hr]
    exact huser

/-- The change that may take a user's activity away also revokes that user's sessions. -/
theorem Database.Linked.changeUser (h : db.Linked) (userId : Int) (change : UserChange) :
    (db.changeUser userId now change).Linked := by
  unfold Database.changeUser
  by_cases hrevokes : change.revokes = true
  · simp only [hrevokes, if_true]
    refine h.transport (fun r hr hnone => ?_) (fun r hr hnone hactive => ?_)
    · exact ⟨r, (exists_of_mem_revokeSessions hr hnone).1, hnone, rfl⟩
    · have hne : r.userId ≠ userId := by
        simpa [hnone] using (exists_of_mem_revokeSessions hr hnone).2
      exact activeUser_updateUser_of_ne hne hactive
  · simp only [hrevokes]
    refine h.transport (fun r hr hnone => ⟨r, hr, hnone, rfl⟩) (fun r hr hnone hactive => ?_)
    exact activeUser_updateUser_of_not_revokes (Bool.not_eq_true _ ▸ hrevokes) hactive

theorem AccountEffect.linked (h : AccountEffect phc db now op db') (hl : db.Linked) :
    db'.Linked := by
  cases h with
  | same => exact hl
  | issue hok => exact hl.issueSessionForUser hok
  | renewContext p => exact hl.renewSession _ _ p
  | renewForVault p => exact hl.renewSession _ _ p
  | revoke p _ => exact hl.revokeSessions p
  | created _ _ _ _ _ _ => exact fun r hr hnone => activeUser_withUser (hl r hr hnone)
  | changed _ _ _ => exact hl.changeUser _ _
  | toggled _ _ => exact hl

/-- A session's token was there before, or is the one just drawn. -/
theorem SessionChange.tokenHash {sessions : List SessionRow}
    (h : SessionChange db now op sessions) {r : SessionRow} (hr : r ∈ sessions) :
    (∃ q ∈ db.sessions, q.tokenHash = r.tokenHash) ∨ r.tokenHash ∈ op.issues? := by
  cases h with
  | keep => exact .inl ⟨r, hr, rfl⟩
  | issue _ _ _ =>
    rcases List.mem_append.mp hr with hr | hr
    · exact .inl ⟨r, List.mem_of_mem_filter hr, rfl⟩
    · rw [List.mem_singleton.mp hr]
      exact .inr rfl
  | renewContext p | renewForVault p =>
    obtain ⟨q, hq, htoken, -⟩ := mem_renewSession hr
    exact .inl ⟨q, hq, htoken.symm⟩
  | revoke p _ =>
    obtain ⟨q, hq, htoken, -⟩ := mem_revokeSessions hr
    exact .inl ⟨q, hq, htoken.symm⟩

/-- Only a live session is renewed, so no operation but the drawing of the same token
makes a dead one valid. -/
theorem SessionChange.dead {sessions : List SessionRow} (h : SessionChange db now op sessions)
    {tokenHash : String} {t : Int} (hle : t ≤ now) (hnew : tokenHash ∉ op.issues?)
    (hdead : Dead db.sessions tokenHash t) : Dead sessions tokenHash now := by
  intro r hr htoken
  have hold : ∀ q ∈ db.sessions, q.tokenHash = tokenHash → q.live now = false :=
    fun q hq hqt => SessionRow.live_antitone hle (hdead q hq hqt)
  cases h with
  | keep => exact hold r hr htoken
  | issue _ _ _ =>
    rcases List.mem_append.mp hr with hr | hr
    · exact hold r (List.mem_of_mem_filter hr) htoken
    · rw [List.mem_singleton.mp hr] at htoken
      exact absurd (htoken ▸ rfl) hnew
  | renewContext p | renewForVault p =>
    obtain ⟨q, hq, hqt, -, -, rfl | hlive⟩ := mem_renewSession hr
    · exact hold r hq htoken
    · rw [hold q hq (hqt ▸ htoken)] at hlive
      cases hlive
  | revoke p _ =>
    obtain ⟨q, hq, -, -, ⟨rfl, -⟩ | hrevoked⟩ := mem_revokeSessions hr
    · exact hold r hq htoken
    · simp [SessionRow.live,
        Option.isNone_eq_false_iff.mpr (Option.isSome_iff_ne_none.mpr hrevoked)]

end Operation

/-! ## What a refusal means -/

theorem authenticated_eq_none {db : Database} {tokenHash : String} {now : Int}
    (h : Dead db.sessions tokenHash now) : db.authenticated tokenHash now = none := by
  refine List.findSome?_eq_none_iff.mpr fun s hs => ?_
  by_cases htoken : s.tokenHash = tokenHash
  · simp [h s hs htoken]
  · simp [htoken]

/-- In a linked database a token is refused for its session alone. -/
theorem dead_of_authenticated_eq_none {db : Database} (hl : db.Linked) {tokenHash : String}
    {now : Int} (h : db.authenticated tokenHash now = none) : Dead db.sessions tokenHash now := by
  intro r hr htoken
  by_contra hlive
  rw [Bool.not_eq_false] at hlive
  have hnone : r.revokedAt = none := by
    simp only [SessionRow.live, Bool.and_eq_true, Option.isNone_iff_eq_none] at hlive
    exact hlive.2
  obtain ⟨u, hu, hid, hactive⟩ := activeUser_iff.mp (hl r hr hnone)
  have hrow := List.findSome?_eq_none_iff.mp h r hr
  simp only [htoken, hlive, decide_true, Bool.and_self, if_true, Option.map_eq_none_iff,
    List.find?_eq_none] at hrow
  exact hrow u hu (by simp [hid, hactive])

theorem authContextHash_eq_none {db : Database} {tokenHash : String} {now : Int}
    (h : Dead db.sessions tokenHash now) : db.authContextHash tokenHash now = none := by
  unfold Database.authContextHash
  split
  · rw [authenticated_eq_none h, Option.map_none]
  · rfl

/-- A disabled user of a linked database has no unrevoked session. -/
theorem Database.Linked.revoked_of_disabled {db : Database} (hl : db.Linked)
    (hc : Constraints db) {u : UserRow} {r : SessionRow} (hu : u ∈ db.users)
    (hdisabled : u.status = .disabled) (hr : r ∈ db.sessions) (hid : r.userId = u.id) :
    r.revokedAt ≠ none := by
  intro hnone
  obtain ⟨w, hw, hwid, hactive⟩ := activeUser_iff.mp (hl r hr hnone)
  have hsame : w = u := List.inj_on_of_nodup_map hc.userId hw hu (hwid.trans hid)
  rw [hsame, hdisabled] at hactive
  cases hactive

/-! ## Runs -/

namespace TokenState

variable {phc : PhcParser} {s s' : TokenState}

theorem Sound.step {a : AccountOperation × Int} (h : Sound s) (hstep : Step phc s a s') :
    Sound s' := by
  cases hstep with
  | @account op now store' hclock hfresh haccount =>
    refine ⟨haccount.effect.linked h.linked, fun r hr => ?_⟩
    rcases haccount.effect.sessionChange.tokenHash hr with ⟨q, hq, htoken⟩ | hdrawn
    · exact List.mem_append_right _ (htoken ▸ h.issued q hq)
    · exact List.mem_append_left _ (Option.mem_toList.mpr hdrawn)

theorem Sound.run {as : List (AccountOperation × Int)} (h : Sound s)
    (hrun : Run (Step phc) s as s') : Sound s' :=
  hrun.invariant (fun hs hstep => hs.step hstep) h

/-- A drawn token that is dead at the last reading. -/
structure Spent (tokenHash : String) (s : TokenState) : Prop where
  issued : tokenHash ∈ s.issued
  dead : Dead s.store.db.sessions tokenHash s.clock

theorem Spent.step {tokenHash : String} {a : AccountOperation × Int} (h : Spent tokenHash s)
    (hstep : Step phc s a s') : Spent tokenHash s' := by
  cases hstep with
  | @account op now store' hclock hfresh haccount =>
    refine ⟨List.mem_append_right _ h.issued, ?_⟩
    exact haccount.effect.sessionChange.dead hclock (fun hnew => hfresh _ hnew h.issued) h.dead

theorem Spent.run {tokenHash : String} {as : List (AccountOperation × Int)}
    (h : Spent tokenHash s) (hrun : Run (Step phc) s as s') : Spent tokenHash s' :=
  hrun.invariant (fun hs hstep => hs.step hstep) h

end TokenState

/-- Once a drawn token is refused, at a reading `t`, it is refused at every reading after
that, whatever sessions are issued, renewed or revoked and whatever happens to its user's
account in between; and no disabled user ever has an unrevoked session. -/
theorem refused_token_stays_refused {phc : PhcParser} {s₀ s s' : TokenState}
    {as bs : List (AccountOperation × Int)} {tokenHash : String} {t t' : Int}
    (hstart : s₀.Sound) (hbefore : Run (TokenState.Step phc) s₀ as s)
    (hissued : tokenHash ∈ s.issued)
    (hrefused : s.store.db.authContextHash tokenHash t = none)
    (hafter : Run (TokenState.Step phc) { s with clock := t } bs s') (ht' : s'.clock ≤ t') :
    s'.store.db.authContextHash tokenHash t' = none ∧
      ∀ u ∈ s'.store.db.users, u.status = .disabled → ∀ r ∈ s'.store.db.sessions,
        r.userId = u.id → r.revokedAt ≠ none := by
  have hsound : s.Sound := hstart.run hbefore
  have hsound' : s'.Sound :=
    TokenState.Sound.run (s := { s with clock := t }) ⟨hsound.linked, hsound.issued⟩ hafter
  refine ⟨?_, fun u hu hdisabled r hr hid =>
    hsound'.linked.revoked_of_disabled s'.store.constraints hu hdisabled hr hid⟩
  by_cases hshape : isTokenHash tokenHash = true
  · -- the refusal is the session's, and that is what the run keeps
    have hnone : s.store.db.authenticated tokenHash t = none := by
      simpa [Database.authContextHash, hshape] using hrefused
    have hspent : TokenState.Spent tokenHash { s with clock := t } :=
      ⟨hissued, dead_of_authenticated_eq_none hsound.linked hnone⟩
    have hdead := (hspent.run hafter).dead
    exact authContextHash_eq_none fun r hr htoken =>
      SessionRow.live_antitone ht' (hdead r hr htoken)
  · simp [Database.authContextHash, hshape]

/-- The state after an operation. -/
def TokenState.next (phc : PhcParser) (s : TokenState) (op : AccountOperation) (now : Int) :
    TokenState :=
  ⟨s.store.account phc op now, now, op.issues?.toList ++ s.issued⟩

theorem TokenState.step_next {phc : PhcParser} {s : TokenState} {op : AccountOperation} {now : Int}
    (hclock : s.clock ≤ now) (hfresh : ∀ tokenHash ∈ op.issues?, tokenHash ∉ s.issued) :
    TokenState.Step phc s (op, now) (s.next phc op now) :=
  .account hclock hfresh (s.store.account_step phc op now)

def guestTokenHash : String := String.ofList (List.replicate 64 'b')

/-- The personal server before anything happens. -/
def guestExpected : TokenState :=
  ⟨⟨personalServer, constraints_personalServer⟩, 0, [someTokenHash]⟩

/-- A second user joins it and signs in. -/
def guestSignedIn : TokenState :=
  (guestExpected.next onePhc
    (.createUser "guest@example.test" "Guest" somePasswordHash) 1).next onePhc
      (.issueSessionForUser guestTokenHash 2 3600) 2

def guestDisabled : TokenState := guestSignedIn.next onePhc (.setUserStatus 2 "disabled") 3

def guestEnabled : TokenState :=
  ({ guestDisabled with clock := 4 } : TokenState).next onePhc (.setUserStatus 2 "active") 5

theorem refused_token_stays_refused_of_reenabled :
    guestSignedIn.store.db.authContextHash guestTokenHash 2 ≠ none ∧
      guestEnabled.store.db.activeUser 2 = true ∧
      guestEnabled.store.db.authContextHash guestTokenHash 6 = none := by
  refine ⟨by decide +kernel, by decide +kernel, ?_⟩
  have hstart : guestExpected.Sound :=
    ⟨by unfold Database.Linked; decide +kernel, by decide +kernel⟩
  have hbefore : Run (TokenState.Step onePhc) guestExpected
      [(.createUser "guest@example.test" "Guest" somePasswordHash, 1),
        (.issueSessionForUser guestTokenHash 2 3600, 2), (.setUserStatus 2 "disabled", 3)]
      guestDisabled :=
    .cons (TokenState.step_next (by decide) (by decide))
      (.cons (TokenState.step_next (by decide) (by decide +kernel))
        (.cons (TokenState.step_next (by decide) (by decide)) (.nil _)))
  have hafter : Run (TokenState.Step onePhc) { guestDisabled with clock := 4 }
      [(.setUserStatus 2 "active", 5)] guestEnabled :=
    .cons (TokenState.step_next (by decide) (by decide)) (.nil _)
  exact (refused_token_stays_refused hstart hbefore (by decide +kernel) (by decide +kernel) hafter
    (by decide)).1

end Blackglass
