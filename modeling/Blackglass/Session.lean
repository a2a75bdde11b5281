import Blackglass.Constraints
import Blackglass.Lib.Text

/-!
# Sessions and authority

Every mutation re-checks, inside its own transaction, that the session it was started
with is still live and that its user still has a relationship to the vault
(`authorize_account_mutation`, `vault_access`, `authorize_mutation`).  The clock is an
argument: `now_ms()` may return anything, and two calls of one request may differ.
-/

namespace Blackglass

open Outcome Text

/-- The two clock readings of one request: the one `authorize_account_mutation` makes
for itself and the one of the operation. -/
structure Readings where
  authorizedAt : Int
  now : Int
deriving DecidableEq

/-- `i64` arithmetic that stops at the ends of its range. -/
def saturate (x : Int) : Int := max (-9223372036854775808) (min 9223372036854775807 x)

/-- Half a lifetime from now. -/
def renewalThreshold (ttlSecs now : Int) : Int :=
  saturate (now + (saturate (ttlSecs * 1000)).tdiv 2)

/-- A full lifetime from now. -/
def renewedExpiry (ttlSecs now : Int) : Int := saturate (now + saturate (ttlSecs * 1000))

/-- `hash.len() == 64 && hash.bytes().all(|byte| byte.is_ascii_hexdigit())`. -/
def isTokenHash (hash : String) : Bool :=
  hash.utf8ByteSize = 64 && hash.toList.all isAsciiHexDigit

/-- `model.rs`, `AuthContext`: who a token stands for. -/
structure AuthContext where
  userId : Int
  email : String
  name : String
  role : UserRole
  tokenHash : String
deriving DecidableEq

/-- `u.id,u.email,u.name,u.role,s.token_hash`. -/
def AuthContext.ofRow (row : SessionRow × UserRow) : AuthContext :=
  { userId := row.2.id, email := row.2.email, name := row.2.name, role := row.2.role,
    tokenHash := row.1.tokenHash }

/-- `s.expires_at>? AND s.revoked_at IS NULL`. -/
def SessionRow.live (s : SessionRow) (now : Int) : Bool :=
  s.expiresAt > now && s.revokedAt.isNone

namespace Database

/-- `EXISTS(SELECT 1 FROM users WHERE id=? AND status='active')`. -/
def activeUser (db : Database) (id : Int) : Bool :=
  db.users.any fun u => u.id = id && u.status = .active

/-- The first active membership of a user in a vault. -/
def activeMembership (db : Database) (vaultId : String) (userId : Int) : Option MembershipRow :=
  db.memberships.find? fun m => m.vaultId = vaultId && m.userId = userId && m.active

/-! ## Authorization of mutations -/

/-- Without a token the production build always refuses. -/
def authorizeAccountMutation (db : Database) (tokenHash : Option String) (userId now : Int) :
    Except DbError Unit := do
  let tokenHash ← orReject tokenHash (.bail "mutation authorization is required")
  rejectIf (¬db.sessions.any fun s =>
      s.tokenHash = tokenHash && s.userId = userId && s.live now && db.activeUser s.userId)
    (.bail "mutation authorization expired or was revoked")

def vaultAccess (db : Database) (userId : Int) (vaultId : String) : Option VaultAccess :=
  match db.vault? vaultId with
  | none => none
  | some v =>
    if v.ownerUserId = userId then some (.owner userId vaultId)
    else (db.activeMembership v.id userId).map fun m => .collaborator userId vaultId m.id

def authorizeMutation (db : Database) (tokenHash : Option String) (userId : Int)
    (vaultId : String) (now : Int) : Except DbError Unit := do
  authorizeAccountMutation db tokenHash userId now
  rejectIf ((db.vaultAccess userId vaultId).isNone)
    (.bail "mutation authorization expired or was revoked")

/-! ## Sessions -/

/-- `issue_session_for_user`; the token is fresh randomness, and its hash the row's key. -/
def issueSessionForUser (db : Database) (tokenHash : String) (userId ttlSecs now : Int) :
    Except DbError Database := do
  let sessions := db.sessions.filter fun s => !(s.expiresAt ≤ now || s.revokedAt.isSome)
  rejectIf (maxSessions ≤ sessions.length) (.bail "active session limit reached")
  rejectIf (db.activeUser userId = false) (.bail "user is unavailable")
  rejectIf (maxSessionsPerUser ≤
      (sessions.filter fun s => s.userId = userId && s.live now).length)
    (.bail "active user session limit reached")
  rejectIf (sessions.any fun s => s.tokenHash = tokenHash) .constraint
  return { db with sessions := sessions ++ [{
    tokenHash := tokenHash, userId := userId, createdAt := now, expiresAt := now + ttlSecs * 1000,
    revokedAt := none }] }

/-- The session of a token that is live, with its active user:
`sessions s JOIN users u ON u.id=s.user_id`. -/
def authenticated (db : Database) (tokenHash : String) (now : Int) :
    Option (SessionRow × UserRow) :=
  db.sessions.findSome? fun s =>
    if s.tokenHash = tokenHash && s.live now then
      (db.users.find? fun u => u.id = s.userId && u.status = .active).map fun u => (s, u)
    else none

def authContextHash (db : Database) (tokenHash : String) (now : Int) : Option AuthContext :=
  if isTokenHash tokenHash then (db.authenticated tokenHash now).map .ofRow else none

/-- The rows that the renewal `UPDATE` of `auth_context_hash_with_renewal` and of
`renew_session_for_vault` changes.  `authorized` is the rest of the `WHERE` clause. -/
def renewable (tokenHash : String) (ttlSecs now : Int) (authorized : SessionRow → Bool)
    (s : SessionRow) : Bool :=
  s.tokenHash = tokenHash && s.expiresAt > now && s.expiresAt ≤ renewalThreshold ttlSecs now &&
    s.revokedAt.isNone && authorized s

/-- That `UPDATE`: the session moves to a full lifetime once less than half of it is left. -/
def renewSession (db : Database) (tokenHash : String) (ttlSecs now : Int)
    (authorized : SessionRow → Bool) : Database :=
  db.mapSessions fun s =>
    if renewable tokenHash ttlSecs now authorized s then
      { s with expiresAt := renewedExpiry ttlSecs now }
    else s

/-- Whether exactly one row was changed. -/
def renewed (db : Database) (tokenHash : String) (ttlSecs now : Int)
    (authorized : SessionRow → Bool) : Bool :=
  (db.sessions.filter (renewable tokenHash ttlSecs now authorized)).length = 1

def authContextHashWithRenewal (db : Database) (tokenHash : String) (ttlSecs now : Int) :
    (Option AuthContext × Bool) × Database :=
  if isTokenHash tokenHash then
    match db.authenticated tokenHash now with
    | none => ((none, false), db)
    | some row =>
      if row.1.expiresAt > renewalThreshold ttlSecs now then ((some (.ofRow row), false), db)
      else
        let active := fun s : SessionRow => db.activeUser s.userId
        let db' := db.renewSession tokenHash ttlSecs now active
        (((db'.authenticated tokenHash now).map .ofRow,
          db.renewed tokenHash ttlSecs now active), db')
  else ((none, false), db)

/-- `v.owner_user_id=s.user_id OR EXISTS(SELECT 1 FROM memberships m ..)`. -/
def ownsOrJoined (db : Database) (v : VaultRow) (userId : Int) : Bool :=
  v.ownerUserId = userId ||
    db.memberships.any fun m => m.vaultId = v.id && m.userId = userId && m.active

def validSessionForVault (db : Database) (hash vault : String) (now : Int) : Bool :=
  hash.utf8ByteSize = 64 && !vault.isEmpty &&
    db.sessions.any fun s => db.users.any fun u => db.vaults.any fun v =>
      u.id = s.userId && u.status = .active && v.id = vault && s.tokenHash = hash &&
        s.live now && db.ownsOrJoined v s.userId

/-- The `EXISTS(..)` that `renew_session_for_vault` asks three times. -/
def vaultAuthorization (db : Database) (vault : String) (s : SessionRow) : Bool :=
  db.users.any fun u => db.vaults.any fun v =>
    v.id = vault && u.id = s.userId && u.status = .active && db.ownsOrJoined v s.userId

/-- `SELECT expires_at FROM sessions WHERE token_hash=? AND .. AND {authorization}`. -/
def authorizedExpiry (db : Database) (hash vault : String) (now : Int) : Option Int :=
  (db.sessions.find? fun s =>
    s.tokenHash = hash && s.live now && db.vaultAuthorization vault s).map (·.expiresAt)

def renewSessionForVault (db : Database) (hash vault : String) (ttlSecs now : Int) :
    Option Bool × Database :=
  if hash.utf8ByteSize ≠ 64 ∨ vault.isEmpty then (none, db)
  else
    match db.authorizedExpiry hash vault now with
    | none => (none, db)
    | some expiry =>
      if expiry > renewalThreshold ttlSecs now then (some false, db)
      else
        let authorization := db.vaultAuthorization vault
        let db' := db.renewSession hash ttlSecs now authorization
        ((db'.authorizedExpiry hash vault now).map fun _ =>
          db.renewed hash ttlSecs now authorization, db')

/-- `UPDATE sessions SET revoked_at=MAX(?,created_at) WHERE ..`. -/
def revokeSessions (db : Database) (now : Int) (p : SessionRow → Bool) : Database :=
  db.mapSessions fun s => if p s then { s with revokedAt := some (max now s.createdAt) } else s

def revokeSession (db : Database) (tokenHash : String) (now : Int) : Database :=
  db.revokeSessions now fun s => s.tokenHash = tokenHash

def revokeAllSessions (db : Database) (now : Int) : Database :=
  db.revokeSessions now fun s => s.revokedAt.isNone

/-- `.. WHERE user_id=? AND revoked_at IS NULL`. -/
def revokeSessionsOf (db : Database) (userId now : Int) : Database :=
  db.revokeSessions now fun s => s.userId = userId && s.revokedAt.isNone

end Database

/-! ## What an authorization has seen -/

/-- At time `now` the session of `tokenHash` is unrevoked and unexpired, and bound to
the active user `userId`. -/
def Authorized (db : Database) (tokenHash : String) (userId now : Int) : Prop :=
  (∃ s ∈ db.sessions, s.tokenHash = tokenHash ∧ s.userId = userId ∧ now < s.expiresAt ∧
      s.revokedAt = none) ∧
    ∃ u ∈ db.users, u.id = userId ∧ u.status = .active

theorem activeUser_iff {db : Database} {id : Int} :
    db.activeUser id = true ↔ ∃ u ∈ db.users, u.id = id ∧ u.status = .active := by
  simp [Database.activeUser]

theorem authorizeAccountMutation_ok {db : Database} {tokenHash : Option String} {userId now : Int}
    {u : Unit} :
    db.authorizeAccountMutation tokenHash userId now = .ok u ↔
      ∃ t, tokenHash = some t ∧ Authorized db t userId now := by
  simp only [Database.authorizeAccountMutation, bind_eq_ok, orReject_eq_ok, rejectIf_eq_ok,
    not_not, List.any_eq_true]
  refine exists_congr fun t => and_congr_right fun _ => ?_
  constructor
  · rintro ⟨s, hs, hrow⟩
    simp only [SessionRow.live, Bool.and_eq_true, decide_eq_true_eq, Option.isNone_iff_eq_none]
      at hrow
    obtain ⟨⟨⟨htoken, huser⟩, hexp, hrev⟩, hactive⟩ := hrow
    exact ⟨⟨s, hs, htoken, huser, hexp, hrev⟩, activeUser_iff.mp (huser ▸ hactive)⟩
  · rintro ⟨⟨s, hs, htoken, huser, hexp, hrev⟩, hactive⟩
    refine ⟨s, hs, ?_⟩
    rw [← huser] at hactive
    simp [SessionRow.live, htoken, huser, hexp, hrev, activeUser_iff.mpr (huser ▸ hactive)]

theorem authorizeAccountMutation_some {db : Database} {tokenHash : String} {userId now : Int}
    {u : Unit} :
    db.authorizeAccountMutation (some tokenHash) userId now = .ok u ↔
      Authorized db tokenHash userId now := by
  simp [authorizeAccountMutation_ok]

/-- A user who is neither a vault's owner nor one of its active members has no access. -/
theorem vaultAccess_isSome {db : Database} {userId : Int} {vaultId : String}
    (h : (db.vaultAccess userId vaultId).isSome = true) :
    ∃ v ∈ db.vaults, v.id = vaultId ∧ (v.ownerUserId = userId ∨
      ∃ m ∈ db.memberships, m.vaultId = vaultId ∧ m.userId = userId ∧ m.revokedAt = none) := by
  unfold Database.vaultAccess at h
  cases hv : db.vault? vaultId with
  | none => simp [hv] at h
  | some v =>
    obtain ⟨hmem, hid⟩ := mem_of_vault? hv
    refine ⟨v, hmem, hid, ?_⟩
    by_cases hown : v.ownerUserId = userId
    · exact .inl hown
    · simp only [hv, hown, if_false, Option.isSome_map] at h
      obtain ⟨m, hm⟩ := Option.isSome_iff_exists.mp h
      have hp := List.find?_some hm
      simp only [MembershipRow.active, Bool.and_eq_true, decide_eq_true_eq,
        Option.isNone_iff_eq_none] at hp
      exact .inr ⟨m, List.mem_of_find?_eq_some hm, hp.1.1.trans hid, hp.1.2, hp.2⟩

theorem authorizeMutation_ok {db : Database} {tokenHash : Option String} {userId now : Int}
    {vaultId : String} {u : Unit} :
    db.authorizeMutation tokenHash userId vaultId now = .ok u ↔
      (∃ t, tokenHash = some t ∧ Authorized db t userId now) ∧
        (db.vaultAccess userId vaultId).isSome = true := by
  simp only [Database.authorizeMutation, bind_eq_ok, rejectIf_eq_ok, authorizeAccountMutation_ok,
    exists_unit, Bool.not_eq_true, Option.isNone_eq_false_iff]

/-- What a session is authorized for is an existing user. -/
theorem Authorized.hasUser {db : Database} {tokenHash : String} {userId now : Int}
    (h : Authorized db tokenHash userId now) : db.hasUser userId = true := by
  obtain ⟨-, u, hu, hid, -⟩ := h
  exact hasUser_iff.mpr ⟨u, hu, hid⟩

/-! ## Session changes keep the schema's constraints -/

namespace Constraints

variable {db : Database}

/-- An update of session rows that touches neither their tokens nor their users. -/
theorem mapSessions (h : Constraints db) {f : SessionRow → SessionRow}
    (htoken : ∀ s, (f s).tokenHash = s.tokenHash) (huser : ∀ s, (f s).userId = s.userId) :
    Constraints (db.mapSessions f) :=
  { h with
    sessionToken := by
      simp only [Database.mapSessions_sessions, List.map_map, Function.comp_def, htoken]
      exact h.sessionToken
    sessionUser := by
      intro s hs
      obtain ⟨t, ht, rfl⟩ := List.mem_map.mp hs
      rw [huser]
      exact h.sessionUser t ht }

theorem revokeSessions (h : Constraints db) (now : Int) (p : SessionRow → Bool) :
    Constraints (db.revokeSessions now p) :=
  h.mapSessions (fun s => by split <;> rfl) (fun s => by split <;> rfl)

theorem renewSession (h : Constraints db) (tokenHash : String) (ttlSecs now : Int)
    (p : SessionRow → Bool) : Constraints (db.renewSession tokenHash ttlSecs now p) :=
  h.mapSessions (fun s => by split <;> rfl) (fun s => by split <;> rfl)

theorem issueSessionForUser (h : Constraints db) {db' : Database} {tokenHash : String}
    {userId ttlSecs now : Int}
    (hok : db.issueSessionForUser tokenHash userId ttlSecs now = .ok db') : Constraints db' := by
  simp only [Database.issueSessionForUser, bind_eq_ok, rejectIf_eq_ok, exists_unit, pure_eq_ok]
    at hok
  obtain ⟨-, huser, -, htoken, rfl⟩ := hok
  have hsub := (List.filter_sublist (p := fun s : SessionRow =>
    !(s.expiresAt ≤ now || s.revokedAt.isSome)) (l := db.sessions))
  exact { h with
    sessionToken := by
      simp only [List.map_append, List.map_cons, List.map_nil]
      refine (h.sessionToken.sublist (hsub.map _)).append (by simp) ?_
      intro t hin hnew
      obtain ⟨s, hs, rfl⟩ := List.mem_map.mp hin
      simp only [List.any_eq_true, not_exists, not_and, decide_eq_true_eq] at htoken
      exact htoken s hs (by simpa using hnew)
    sessionUser := by
      intro s hs
      rcases List.mem_append.mp hs with hs | hs
      · exact h.sessionUser s (List.mem_of_mem_filter hs)
      · rw [List.mem_singleton.mp hs]
        obtain ⟨u, hu, hid, -⟩ := activeUser_iff.mp (by simpa using huser)
        exact hasUser_iff.mpr ⟨u, hu, hid⟩ }

end Constraints

end Blackglass
