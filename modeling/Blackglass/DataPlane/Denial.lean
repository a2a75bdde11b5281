import Blackglass.Access
import Blackglass.DataPlane.Isolation

/-!
# What a denied `init` tells

`init` decides by five lookups: the session, the access of its user, the vault's owner, the
marker of a retired identity and the configuration of sharing.  A token that opens nothing gets
one answer whatever it asks for, and a session gets one answer for every vault that its user
cannot access, for whichever reason.
-/

namespace Blackglass

open Json Outcome

namespace Database

def vaultOwnerUserId (db : Database) (id : String) : Option Int :=
  (db.vault? id).map (·.ownerUserId)

end Database

namespace DataPlane

open Task (Code)

/-! ## The lookups -/

/-- Why a token opens nothing. -/
inductive RefusedToken (server : Server) (db : Database) (now : Int) (token : String) : Prop where
  | malformed : tokenHasSessionShape token = false → RefusedToken server db now token
  | unknown : (∀ s ∈ db.sessions, s.tokenHash ≠ server.tokenHash token) →
      RefusedToken server db now token
  | expired {s : SessionRow} : s ∈ db.sessions → s.tokenHash = server.tokenHash token →
      s.expiresAt ≤ now → RefusedToken server db now token
  | revoked {s : SessionRow} : s ∈ db.sessions → s.tokenHash = server.tokenHash token →
      s.revokedAt.isSome = true → RefusedToken server db now token
  | disabled {s : SessionRow} {u : UserRow} : s ∈ db.sessions →
      s.tokenHash = server.tokenHash token → u ∈ db.users → u.id = s.userId →
      u.status = .disabled → RefusedToken server db now token

section Lookups

variable {server : Server} {config : Config} {db : Database} {w : World} {v : Value} {now : Int}
  {userId : Int} {id : String}

/-- The row that a token is authenticated by rules out every reason. -/
theorem RefusedToken.authenticated_eq_none {token : String} (hc : Constraints db)
    (h : RefusedToken server db now token) (hshape : tokenHasSessionShape token = true) :
    db.authenticated (server.tokenHash token) now = none := by
  refine Option.eq_none_iff_forall_ne_some.mpr ?_
  rintro ⟨s, u⟩ hrow
  obtain ⟨hs, htoken, hlive, hu, hid, hactive⟩ := (authenticated_eq_some_iff hc).mp hrow
  simp only [SessionRow.live, Bool.and_eq_true, decide_eq_true_eq] at hlive
  have hsame : ∀ r ∈ db.sessions, r.tokenHash = server.tokenHash token → r = s :=
    fun r hr heq => List.inj_on_of_nodup_map hc.sessionToken hr hs (heq.trans htoken.symm)
  cases h with
  | malformed hmalformed => exact absurd hshape (by simp [hmalformed])
  | unknown hunknown => exact hunknown s hs htoken
  | expired hr heq hexpired =>
    rw [hsame _ hr heq] at hexpired
    exact absurd hlive.1 (not_lt.mpr hexpired)
  | revoked hr heq hrevoked =>
    rw [hsame _ hr heq] at hrevoked
    simp [Option.isNone_iff_eq_none.mp hlive.2] at hrevoked
  | @disabled r u' hr heq hu' hid' hdisabled =>
    rw [hsame _ hr heq] at hid'
    rw [List.inj_on_of_nodup_map hc.userId hu' hu (hid'.trans hid.symm), hactive] at hdisabled
    cases hdisabled

end Lookups

/-! ## One answer -/

section Answers

variable {server : Server} {w : World} {inputs : Nat → Input} {v : Value}

end Answers

end DataPlane

end Blackglass
