import Blackglass.Authority
import Blackglass.DataPlane.Connection

/-!
# The key hash of a vault

A device shows at `init` that it has the key of a vault by sending the key's hash.  A vault
that manages its own key has no hash until its owner first accesses it, which writes the hash
once; `access_vault` reads the vault in one transaction and binds the hash in a second one.

`init` compares what a device sends with what the vault has, both of which may be absent.  So
before the hash is bound a device that sends none is let in, and stays connected when the hash
is bound.  Devices that do send a hash all have the same one.
-/

namespace Blackglass

open Rows Outcome Transition Json Text

namespace DataPlane

/-! ## `init` up to the renewal of the session -/

/-- The key hash that an `init` message shows. -/
def presentedKeyhash (v : Value) : Option String := (v.get "keyhash").bind Value.asStr

inductive InitRefusal where
  | unableToAuthenticate
  | vaultNotFound
deriving DecidableEq

def InitRefusal.answer : InitRefusal → Program
  | unableToAuthenticate => DataPlane.unableToAuthenticate
  | vaultNotFound => DataPlane.vaultNotFound

/-- What `init` finds in its first transaction. -/
def initFound (server : Server) (w : World) (v : Value) :
    Except InitRefusal (AuthContext × VaultRow) :=
  match initContext server w v with
  | none => .error .unableToAuthenticate
  | some context =>
    match w.store.db.findAuthorizedVault context.userId (initId v) with
    | none => .error .vaultNotFound
    | some (vault, access) =>
      if access.isCollaborator && !server.config.sharingAllowedForOwner vault.ownerUserId then
        .error .vaultNotFound
      else if presentedKeyhash v ≠ vault.keyhash ∨
          (v.get "encryption_version").bind Value.asI64 ≠ some vault.encryptionVersion then
        .error .unableToAuthenticate
      else .ok (context, vault)

/-- `init` goes on just if its first transaction has found what it asks for. -/
theorem init_eq (server : Server) (v : Value) :
    init server v = atTime fun _ => .read fun w =>
      match initFound server w v with
      | .ok (context, vault) => authenticate server v context vault
      | .error refusal => refusal.answer := by
  unfold init
  refine congrArg atTime (funext fun _ => congrArg Task.Code.read (funext fun w => ?_))
  unfold initFound
  cases initContext server w v with
  | none => rfl
  | some context =>
    cases hvault : w.store.db.findAuthorizedVault context.userId (initId v) with
    | none => simp only [hvault]; rfl
    | some found =>
      have hkey : presentedKeyhash v = (v.get "keyhash").bind Value.asStr := rfl
      simp only [hvault, initVault, ← hkey]
      split
      · rfl
      · split <;> rfl

theorem mem_of_findAuthorizedVault {db : Database} {userId : Int} {id : String} {vault : VaultRow}
    {access : VaultAccess} (h : db.findAuthorizedVault userId id = some (vault, access)) :
    vault ∈ db.vaults := by
  simp only [Database.findAuthorizedVault, Option.bind_eq_bind, Option.bind_eq_some_iff,
    Option.pure_def, Option.some.injEq, Prod.mk.injEq] at h
  obtain ⟨_, -, row, hrow, rfl, -⟩ := h
  exact (mem_of_vault? hrow).1

theorem initFound_ok {server : Server} {w : World} {v : Value} {context : AuthContext}
    {vault : VaultRow} (h : initFound server w v = .ok (context, vault)) :
    vault ∈ w.store.db.vaults ∧ presentedKeyhash v = vault.keyhash := by
  unfold initFound at h
  cases hcontext : initContext server w v with
  | none => simp [hcontext] at h
  | some found =>
    cases hvault : w.store.db.findAuthorizedVault found.userId (initId v) with
    | none => simp [hcontext, hvault] at h
    | some pair =>
      obtain ⟨row, access⟩ := pair
      simp only [hcontext, hvault] at h
      split at h
      · cases h
      · split at h
        · cases h
        · rename_i hsame
          cases h
          rw [not_or, not_not] at hsame
          exact ⟨mem_of_findAuthorizedVault hvault, hsame.1⟩

/-! ## Devices -/

/-- How far a device has come. -/
inductive Device where
  | connected
  /-- `init` has found the vault, and renews the session next. -/
  | found (vault tokenHash : String) (keyhash : Option String)
  | authenticated (vault : String) (keyhash : Option String)
deriving DecidableEq

/-- The vault that `init` has found for the device, and the key hash shown to it. -/
def Device.shown? : Device → Option (String × Option String)
  | connected => none
  | found vault _ keyhash | authenticated vault keyhash => some (vault, keyhash)

namespace Keys

/-- The devices, with the ids that vaults were made with, and what devices showed to which
vault: those that `init` found no fault with, and those it let in. -/
structure State (C : Type*) where
  store : Store
  used : List String
  devices : C → Device
  accepted : List (String × Option String)
  admitted : List (String × Option String)

inductive Action (C : Type*) where
  | request (request : Request) (t : Readings)
  | account (op : AccountOperation) (now : Int)
  | init (device : C) (v : Value) (now : Int)
  | authenticate (device : C) (now : Int)
  | disconnect (device : C)

variable {C : Type*} [DecidableEq C]

/-- Requests and account operations of anybody interleave with the two transactions of `init`.
A vault gets an id that no vault has had. -/
inductive Step (phc : PhcParser) (server : Server) (s : State C) : Action C → State C → Prop where
  | request {request : Request} {t : Readings} {store' : Store} :
      (∀ id ∈ request.newVault?, id ∉ s.used) → s.store.Step (request, t) store' →
      Step phc server s (.request request t)
        { s with store := store', used := request.newVault?.toList ++ s.used }
  | account {op : AccountOperation} {now : Int} {store' : Store} :
      s.store.Account phc (op, now) store' →
      Step phc server s (.account op now) { s with store := store' }
  | found {c : C} {v : Value} {now : Int} {context : AuthContext} {vault : VaultRow} :
      s.devices c = .connected → initFound server ⟨s.store, now⟩ v = .ok (context, vault) →
      Step phc server s (.init c v now)
        { s with
          devices := Function.update s.devices c
            (.found vault.id context.tokenHash (presentedKeyhash v))
          accepted := (vault.id, presentedKeyhash v) :: s.accepted }
  | refused {c : C} {v : Value} {now : Int} {refusal : InitRefusal} :
      s.devices c = .connected → initFound server ⟨s.store, now⟩ v = .error refusal →
      Step phc server s (.init c v now) s
  | authenticate {c : C} {vault tokenHash : String} {keyhash : Option String} {now : Int} :
      s.devices c = .found vault tokenHash keyhash →
      (s.store.db.renewSessionForVault tokenHash vault server.sessionTtlSecs now).1.isSome →
      Step phc server s (.authenticate c now)
        { s with
          store := (World.renewSessionForVault ⟨s.store, now⟩ tokenHash vault
            server.sessionTtlSecs).store
          devices := Function.update s.devices c (.authenticated vault keyhash)
          admitted := (vault, keyhash) :: s.admitted }
  | disconnect {c : C} :
      Step phc server s (.disconnect c)
        { s with devices := Function.update s.devices c .connected }

/-! ## A key hash is written once -/

/-- Every vault is new or was there before, and a key hash that was there is still there. -/
def KeyhashKept (db : Database) (new : Option String) (db' : Database) : Prop :=
  ∀ v' ∈ db'.vaults, v'.id ∈ new ∨
    ∃ v ∈ db.vaults, v.id = v'.id ∧ ∀ k, v.keyhash = some k → v'.keyhash = some k

section

variable {db db' : Database} {t : Readings} {request : Request} {answer : Answer}
  {new : Option String}

theorem KeyhashKept.of_subset (h : db'.vaults ⊆ db.vaults) : KeyhashKept db new db' :=
  fun v hv => .inr ⟨v, h hv, rfl, fun _ hk => hk⟩

theorem keyhashKept_of_effect (h : Effect db t request answer db') (hc : Constraints db) :
    KeyhashKept db request.newVault? db' := by
  intro v' hv'
  obtain hnew | ⟨v, hv, hkept⟩ := h.vaultsContinue hc v' hv'
  · exact .inl hnew
  · exact .inr ⟨v, hv, hkept.id, hkept.keyhash⟩

end

/-! ## Runs -/

section

variable {phc : PhcParser} {server : Server} {s s' s'' : State C} {a : Action C}
  {actions actions' : List (Action C)}

/-- What any step does to the vaults, and to the ids they were made with. -/
theorem Step.kept (h : Step phc server s a s') : ∃ new : Option String,
    (∀ id ∈ new, id ∉ s.used) ∧ s'.used = new.toList ++ s.used ∧
      KeyhashKept s.store.db new s'.store.db := by
  have hsame : ∀ {db' : Database}, db'.vaults = s.store.db.vaults →
      KeyhashKept s.store.db none db' := fun h => .of_subset (h ▸ List.Subset.refl _)
  cases h with
  | @request request t store' hfresh hstore =>
    refine ⟨request.newVault?, hfresh, rfl, ?_⟩
    cases hstore with
    | commit hok => exact keyhashKept_of_effect (execute_ok hok) s.store.constraints
    | rollback _ => exact .of_subset (List.Subset.refl _)
  | account haccount =>
    exact ⟨none, by simp, rfl, hsame haccount.effect.sameVaults.vaults⟩
  | @authenticate c vault tokenHash keyhash now _ _ =>
    have heffect : AccountEffect phc s.store.db now
        (.renewSessionForVault tokenHash vault server.sessionTtlSecs) _ :=
      renewSessionForVault_effect tokenHash vault server.sessionTtlSecs
    exact ⟨none, by simp, rfl, hsame heffect.sameVaults.vaults⟩
  | found _ _ | refused _ _ | disconnect =>
    exact ⟨none, by simp, rfl, hsame rfl⟩

/-- Every vault has an id that was used. -/
def State.Known (s : State C) : Prop := ∀ v ∈ s.store.db.vaults, v.id ∈ s.used

theorem State.Known.step (hk : s.Known) (h : Step phc server s a s') : s'.Known := by
  obtain ⟨new, -, hused, hkept⟩ := h.kept
  intro v' hv'
  rw [hused]
  rcases hkept v' hv' with hnew | ⟨v, hv, hid, -⟩
  · exact List.mem_append_left _ (Option.mem_toList.mpr hnew)
  · exact List.mem_append_right _ (hid ▸ hk v hv)

/-- The id belongs to a vault with the key hash, or to none any more. -/
structure State.Bound (s : State C) (id keyhash : String) : Prop where
  used : id ∈ s.used
  keyhash_eq : ∀ v ∈ s.store.db.vaults, v.id = id → v.keyhash = some keyhash

theorem State.Bound.step {id keyhash : String} (hb : s.Bound id keyhash)
    (h : Step phc server s a s') : s'.Bound id keyhash := by
  obtain ⟨new, hfresh, hused, hkept⟩ := h.kept
  refine ⟨hused ▸ List.mem_append_right _ hb.used, fun v' hv' hid => ?_⟩
  rcases hkept v' hv' with hnew | ⟨v, hv, hvid, hkey⟩
  · exact absurd hb.used (hfresh id (hid ▸ hnew))
  · exact hkey keyhash (hb.keyhash_eq v hv (hvid.trans hid))

theorem State.Bound.run {id keyhash : String} (hb : s.Bound id keyhash)
    (hrun : Run (Step phc server) s actions s') : s'.Bound id keyhash :=
  Run.invariant (I := fun s : State C => s.Bound id keyhash) (fun hb h => hb.step h) hb hrun

omit [DecidableEq C] in
theorem State.Known.bound (hk : s.Known) {v : VaultRow} {keyhash : String}
    (hv : v ∈ s.store.db.vaults) (hkey : v.keyhash = some keyhash) : s.Bound v.id keyhash := by
  refine ⟨hk v hv, fun w hw hid => ?_⟩
  rw [s.store.constraints.eq_of_vaultId hw hv hid]
  exact hkey

/-! ## One key for all -/

/-- A device that is let in has found a vault with a key hash.  What the device has shown is what
the vault had then. -/
def Action.FindsKeyhash (s : State C) : Action C → Prop
  | .authenticate c _ => ∀ vault tokenHash, s.devices c ≠ .found vault tokenHash none
  | _ => True

/-- The key hash that a device has shown is the one of its vault, and those let in have shown
one. -/
structure State.OneKey (s : State C) : Prop where
  known : s.Known
  bound : ∀ p ∈ s.accepted, ∀ k ∈ p.2, s.Bound p.1 k
  agree : ∀ p ∈ s.accepted, ∀ q ∈ s.accepted, p.1 = q.1 → ∀ k ∈ p.2, ∀ k' ∈ q.2, k = k'
  shown : ∀ c, ∀ p ∈ (s.devices c).shown?, p ∈ s.accepted
  authenticated : ∀ c vault, s.devices c ≠ .authenticated vault none
  admitted : ∀ p ∈ s.admitted, p ∈ s.accepted ∧ p.2 ≠ none

/-- One device has come further. -/
theorem shown_update {devices : C → Device} {accepted : List (String × Option String)}
    (h : ∀ c, ∀ p ∈ (devices c).shown?, p ∈ accepted) {device : Device}
    (hdevice : ∀ p ∈ device.shown?, p ∈ accepted) (c : C) :
    ∀ c', ∀ p ∈ (Function.update devices c device c').shown?, p ∈ accepted := by
  intro c' p hp
  by_cases hc : c' = c
  · rw [hc, Function.update_self] at hp
    exact hdevice p hp
  · rw [Function.update_of_ne hc] at hp
    exact h c' p hp

theorem authenticated_update {devices : C → Device}
    (h : ∀ c vault, devices c ≠ .authenticated vault none) {device : Device}
    (hdevice : ∀ vault, device ≠ .authenticated vault none) (c : C) :
    ∀ c' vault, Function.update devices c device c' ≠ .authenticated vault none := by
  intro c' vault
  by_cases hc : c' = c
  · rw [hc, Function.update_self]
    exact hdevice vault
  · rw [Function.update_of_ne hc]
    exact h c' vault

theorem State.OneKey.step (hk : s.OneKey) (hfinds : a.FindsKeyhash s)
    (h : Step phc server s a s') : s'.OneKey := by
  have hknown := hk.known.step h
  have hold : ∀ p ∈ s.accepted, ∀ k ∈ p.2, s'.Bound p.1 k :=
    fun p hp k hkey => (hk.bound p hp k hkey).step h
  cases h with
  | request _ _ | account _ =>
    exact ⟨hknown, hold, hk.agree, hk.shown, hk.authenticated, hk.admitted⟩
  | refused _ _ => exact hk
  | @found c v now context vault _ hfound =>
    obtain ⟨hvault, hsame⟩ := initFound_ok hfound
    have hbound : ∀ k ∈ presentedKeyhash v, s.Bound vault.id k :=
      fun k hkey => hk.known.bound hvault (hsame.symm.trans hkey)
    -- whoever has shown a key hash before has shown the one of the vault
    have hagree : ∀ p ∈ s.accepted, p.1 = vault.id → ∀ k ∈ p.2, ∀ k' ∈ presentedKeyhash v,
        k = k' := by
      intro p hp hid k hkey k' hkey'
      have hbefore := (hk.bound p hp k hkey).keyhash_eq vault hvault hid.symm
      exact Option.some.inj (hbefore.symm.trans (hsame.symm.trans hkey'))
    refine ⟨hknown, ?_, ?_, ?_, authenticated_update hk.authenticated (by simp) c,
      fun p hp => ⟨List.mem_cons_of_mem _ (hk.admitted p hp).1, (hk.admitted p hp).2⟩⟩
    · intro p hp k hkey
      rcases List.mem_cons.mp hp with rfl | hp
      · exact ⟨(hbound k hkey).used, (hbound k hkey).keyhash_eq⟩
      · exact hold p hp k hkey
    · intro p hp q hq hid k hkey k' hkey'
      rcases List.mem_cons.mp hp with rfl | hp <;> rcases List.mem_cons.mp hq with rfl | hq
      · exact Option.some.inj (hkey.symm.trans hkey')
      · exact (hagree q hq hid.symm k' hkey' k hkey).symm
      · exact hagree p hp hid k hkey k' hkey'
      · exact hk.agree p hp q hq hid k hkey k' hkey'
    · refine shown_update (fun c p hp => List.mem_cons_of_mem _ (hk.shown c p hp)) ?_ c
      intro p hp
      cases hp
      exact List.mem_cons_self
  | @authenticate c vault tokenHash keyhash now hdevice _ =>
    have hshown : (vault, keyhash) ∈ s.accepted := hk.shown c _ (by rw [hdevice]; rfl)
    have hne : keyhash ≠ none := by
      rintro rfl
      exact hfinds vault tokenHash hdevice
    refine ⟨hknown, hold, hk.agree, shown_update hk.shown ?_ c,
      authenticated_update hk.authenticated ?_ c,
      List.forall_mem_cons.mpr ⟨⟨hshown, hne⟩, hk.admitted⟩⟩
    · intro p hp
      cases hp
      exact hshown
    · rintro vault' ⟨⟩
      exact hne rfl
  | disconnect =>
    exact ⟨hknown, hold, hk.agree, shown_update hk.shown (by simp [Device.shown?]) _,
      authenticated_update hk.authenticated (by simp) _, hk.admitted⟩

/-- A server that has just opened its database. -/
def State.start (store : Store) (used : List String) : State C :=
  ⟨store, used, fun _ => .connected, [], []⟩

omit [DecidableEq C] in
theorem oneKey_start {store : Store} {used : List String}
    (h : ∀ v ∈ store.db.vaults, v.id ∈ used) : (State.start store used : State C).OneKey :=
  ⟨h, by simp [State.start], by simp [State.start], by simp [State.start, Device.shown?],
    by simp [State.start], by simp [State.start]⟩

/-- Where only devices are let in that have found a vault with its key hash, the devices that are
let in on a vault have shown that hash, and none has ever shown another one.  A key hash that is
bound stays, in every run. -/
theorem devices_share_one_key {store : Store} {used : List String}
    (hused : ∀ v ∈ store.db.vaults, v.id ∈ used)
    (hrun : Run (Guarded (fun s a => a.FindsKeyhash s) (Step phc server))
      (State.start store used : State C) actions s) :
    (∀ c vault keyhash, s.devices c = .authenticated vault keyhash →
      keyhash ≠ none ∧ ∀ v ∈ s.store.db.vaults, v.id = vault → v.keyhash = keyhash) ∧
    (∀ p ∈ s.admitted, ∀ q ∈ s.admitted, p.1 = q.1 → p.2 = q.2) ∧
    ∀ {actions' : List (Action C)} {s' : State C}, Run (Step phc server) s actions' s' →
      ∀ v ∈ s.store.db.vaults, ∀ keyhash, v.keyhash = some keyhash →
        ∀ v' ∈ s'.store.db.vaults, v'.id = v.id → v'.keyhash = some keyhash := by
  have hk : s.OneKey := Run.invariant_of_guard (I := State.OneKey)
    (fun hk hfinds h => hk.step hfinds h) (oneKey_start hused) hrun
  refine ⟨fun c vault keyhash hdevice => ?_, fun p hp q hq => ?_,
    fun hlater v hv keyhash hkey => ?_⟩
  · cases keyhash with
    | none => exact absurd hdevice (hk.authenticated c vault)
    | some k =>
      have hshown := hk.shown c (vault, some k) (by rw [hdevice]; rfl)
      exact ⟨nofun, (hk.bound _ hshown k rfl).keyhash_eq⟩
  · obtain ⟨hp, hpkey⟩ := hk.admitted p hp
    obtain ⟨hq, hqkey⟩ := hk.admitted q hq
    obtain ⟨k, hpk⟩ := Option.ne_none_iff_exists'.mp hpkey
    obtain ⟨k', hqk⟩ := Option.ne_none_iff_exists'.mp hqkey
    intro hid
    rw [hpk, hqk, hk.agree p hp q hq hid k hpk k' hqk]
  · exact ((hk.known.bound hv hkey).run hlater).keyhash_eq

end

/-! ## A vault that manages its own key -/

/-- The personal server, with a vault whose key hash is not bound yet. -/
def managedServer : Database :=
  { personalServer with
    vaults := personalServer.vaults.map fun v =>
      { v with
        keyhash := none, salt := some (hexEncode (List.replicate 16 0))
        password := some (hexEncode (List.replicate 32 0)) } }

def managedStore : Store := ⟨managedServer, by constructor <;> decide⟩

def someServer : Server := ⟨⟨"h", 100, 10, 10, fun _ => true⟩, 10, id⟩

/-- The `init` message of a device. -/
def initMessage (keyhash : Option String) : Value :=
  .object ([("op", .string "init"), ("token", .string someTokenHash), ("id", .string "vault"),
    ("encryption_version", .number (.int 3))] ++
    (keyhash.map fun k => ("keyhash", Value.string k)).toList)

/-- What `init` finds on the managed server. -/
def ownerContext : AuthContext := ⟨1, "owner@example.test", "Owner", .admin, someTokenHash⟩

def managedVault (keyhash : Option String) : VaultRow :=
  { id := "vault", name := "Notes", keyhash := keyhash
    salt := some (hexEncode (List.replicate 16 0)), host := "h", region := "r"
    encryptionVersion := 3, size := 0, created := 0
    password := some (hexEncode (List.replicate 32 0)), version := 0, ownerUserId := 1 }

/-- The owner accesses the vault before the first device comes. -/
theorem devices_share_one_key_of_bound :
    ∃ s : State Bool, s.devices false = .authenticated "vault" (some "k") ∧
      ∀ v ∈ s.store.db.vaults, v.id = "vault" → v.keyhash = some "k" := by
  let bind := Request.bindManagedKeyhash 1 someTokenHash "vault" "k"
  let s₁ := managedStore.next bind ⟨501, 501⟩
  have hfound : initFound someServer ⟨s₁, 502⟩ (initMessage (some "k")) =
      .ok (ownerContext, managedVault (some "k")) := by decide +kernel
  have hshown : presentedKeyhash (initMessage (some "k")) = some "k" := by decide +kernel
  have hrenewed : (s₁.db.renewSessionForVault someTokenHash "vault" 10 502).1.isSome := by
    decide +kernel
  have hrun : Run (Guarded (fun s a => a.FindsKeyhash s) (Step onePhc someServer))
      (State.start managedStore ["vault"]) [.request bind ⟨501, 501⟩,
        .init false (initMessage (some "k")) 502, .authenticate false 502] _ :=
    .cons ⟨trivial, .request (by decide +kernel) (managedStore.step_next bind ⟨501, 501⟩)⟩ <|
    .cons ⟨trivial, .found (c := false) rfl hfound⟩ <|
    .cons ⟨by simp [Action.FindsKeyhash, State.start, hshown],
      .authenticate (c := false) rfl hrenewed⟩ <| .nil _
  exact ⟨_, rfl, ((devices_share_one_key (by decide +kernel) hrun).1 false _ _ rfl).2⟩

/-- A device that shows no key hash is let in before the hash is bound, and stays when the owner
accesses the vault and a device with the hash comes. -/
theorem devices_with_different_keys :
    ∃ (actions : List (Action Bool)) (s : State Bool),
      Database.verifyConnection onePhc managedStore.db 500 = .ok () ∧
      Run (Step onePhc someServer) (State.start managedStore ["vault"]) actions s ∧
      s.devices false = .authenticated "vault" none ∧
      s.devices true = .authenticated "vault" (some "k") ∧
      s.store.db.vaults.map (fun v => (v.id, v.keyhash)) = [("vault", some "k")] := by
  let s₁ := (World.renewSessionForVault ⟨managedStore, 500⟩ someTokenHash "vault" 10).store
  let bind := Request.bindManagedKeyhash 1 someTokenHash "vault" "k"
  let s₂ := s₁.next bind ⟨501, 501⟩
  have hverified : Database.verifyConnection onePhc managedStore.db 500 = .ok () := by
    decide +kernel
  have hfirst : initFound someServer ⟨managedStore, 500⟩ (initMessage none) =
      .ok (ownerContext, managedVault none) := by decide +kernel
  have hsecond : initFound someServer ⟨s₂, 502⟩ (initMessage (some "k")) =
      .ok (ownerContext, managedVault (some "k")) := by decide +kernel
  have hrenewed : (s₂.db.renewSessionForVault someTokenHash "vault" 10 502).1.isSome := by
    decide +kernel
  exact ⟨_, _, hverified,
    .cons (.found (c := false) rfl hfirst) <|
    .cons (.authenticate (c := false) rfl (by decide +kernel)) <|
    .cons (.request (by decide +kernel) (s₁.step_next bind ⟨501, 501⟩)) <|
    .cons (.found (c := true) rfl hsecond) <|
    .cons (.authenticate (c := true) rfl hrenewed) <| .nil _,
    rfl, rfl, by decide +kernel⟩

end Keys

end DataPlane

end Blackglass
