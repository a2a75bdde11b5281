import Blackglass.DataPlane.Connection
import Blackglass.Markers
import Blackglass.Vaults.Replacement

/-!
# Migrations under the commit-order lock

`migrate_vault` looks its source up in one transaction and replaces it in a second one, which
asks for the owner but not for the encryption version again.  Commits, renames and deletions wait
for the commit-order lock in between; creations, key bindings, invitations, removals and the
operations on accounts do not.  But the lock belongs to the future of the handler and the
transaction to a blocking task: when the client of a handler goes away, the lock is free and the
transaction is still run, some time later.  So a rename may come in between, and then the
replacement has the name that the source had when it was looked up.  The encryption version is
still the one that was seen, because no request changes that of a vault and a vault id is not
given to a second vault.

The server draws vault ids at random; here an id that was drawn is not drawn again.  The ids
drawn, and those that a vault was made with, are kept beside the database.
-/

namespace Blackglass

open Rows Outcome Transition Json

/-! ## The system -/

/-- The requests whose handlers do not take the commit-order lock. -/
def Request.unlocked : Request → Bool
  | createVault .. | bindManagedKeyhash .. | inviteCollaborator .. | removeCollaborator .. => true
  | _ => false

/-- The requests, other than migrations, that are executed under the lock. -/
def Request.waitsForCommit : Request → Bool
  | renameVault .. | deleteVault .. | addEmptyRevision .. | addFileRevision .. | restore ..
  | purge .. => true
  | _ => false

theorem newVault?_of_waitsForCommit {request : Request} (h : request.waitsForCommit = true) :
    request.newVault? = none := by
  cases request with
  | createVault | migrateVault => cases h
  | _ => rfl

namespace Migration

/-- The handler that holds the lock, and how far it is. -/
inductive Holder where
  | request (request : Request)
  | migrate (userId : Int) (tokenHash : String) (v : Value)
  /-- A migration that has found its source. -/
  | found (request : Request)
  | finished

/-- The transaction that the holder is about to run. -/
def Holder.request? : Holder → Option Request
  | .request r | .found r => some r
  | .migrate .. | .finished => none

structure State where
  store : Store
  lock : Option Holder
  /-- The transactions of dropped handlers that have not run yet. -/
  detached : List Request
  /-- The ids that some vault was made with. -/
  used : List String
  /-- The ids that were drawn. -/
  drawn : List String

/-- The transactions that may run next. -/
def State.pending (s : State) : List Request :=
  (s.lock.bind Holder.request?).toList ++ s.detached

inductive Action where
  | account (op : AccountOperation) (now : Int)
  | unlocked (request : Request) (t : Readings)
  | lock (holder : Holder)
  | look (fresh : Fresh)
  | transact (request : Request) (t : Readings)
  | unlock
  | detach

/-- The vault that an action may rename. -/
def Action.renames? : Action → Option String
  | unlocked request _ | transact request _ => request.renames?
  | account .. | lock _ | look _ | unlock | detach => none

/-- A holder may give the lock back at any point: handlers return early on errors, and they are
dropped. -/
inductive Step (phc : PhcParser) (config : Config) (s : State) : Action → State → Prop where
  | account {op : AccountOperation} {now : Int} {store' : Store} :
      s.store.Account phc (op, now) store' →
      Step phc config s (.account op now) { s with store := store' }
  | unlocked {request : Request} {t : Readings} {store' : Store} : request.unlocked = true →
      (∀ id ∈ request.newVault?, id ∉ s.drawn) → s.store.Step (request, t) store' →
      Step phc config s (.unlocked request t)
        { s with
          store := store', used := request.newVault?.toList ++ s.used
          drawn := request.newVault?.toList ++ s.drawn }
  | lockRequest {request : Request} : s.lock = none → request.waitsForCommit = true →
      Step phc config s (.lock (.request request)) { s with lock := some (.request request) }
  | lockMigrate {userId : Int} {tokenHash : String} {v : Value} : s.lock = none →
      Step phc config s (.lock (.migrate userId tokenHash v))
        { s with lock := some (.migrate userId tokenHash v) }
  | look {userId : Int} {tokenHash : String} {v : Value} {fresh : Fresh} {request : Request} :
      s.lock = some (.migrate userId tokenHash v) → fresh.id ∉ s.drawn →
      migrateVault config s.store.db userId tokenHash fresh v = .ok request →
      Step phc config s (.look fresh)
        { s with lock := some (.found request), drawn := fresh.id :: s.drawn }
  | reject {userId : Int} {tokenHash : String} {v : Value} {fresh : Fresh} {error : String} :
      s.lock = some (.migrate userId tokenHash v) →
      migrateVault config s.store.db userId tokenHash fresh v = .error error →
      Step phc config s (.look fresh) { s with lock := some .finished }
  | transact {holder : Holder} {request : Request} {t : Readings} {store' : Store} :
      s.lock = some holder → holder.request? = some request →
      s.store.Step (request, t) store' →
      Step phc config s (.transact request t)
        { s with
          store := store', lock := some .finished, used := request.newVault?.toList ++ s.used }
  | unlock : Step phc config s .unlock { s with lock := none }
  /-- The handler is dropped while its transaction is on the way. -/
  | detach {holder : Holder} {request : Request} : s.lock = some holder →
      holder.request? = some request →
      Step phc config s .detach { s with lock := none, detached := request :: s.detached }
  /-- The transaction of a dropped handler. -/
  | transactDetached {before after : List Request} {request : Request} {t : Readings}
      {store' : Store} : s.detached = before ++ request :: after →
      s.store.Step (request, t) store' →
      Step phc config s (.transact request t)
        { s with
          store := store', detached := before ++ after
          used := request.newVault?.toList ++ s.used }

/-! ## What one transaction keeps -/

section

variable {db db' : Database} {t : Readings} {request : Request} {answer : Answer}
  {s s' : Store} {used : List String}

/-- A transaction leaves the rows of the vaults that it does not make. -/
theorem vaultsContinue_step (hstep : s.Step (request, t) s') :
    VaultsContinue request s.db s'.db := by
  cases hstep with
  | commit hok => exact (execute_ok hok).vaultsContinue s.constraints
  | rollback _ => exact .of_subset (List.Subset.refl _)

/-- Every id in use, or retired, has been used. -/
structure Accounted (db : Database) (used : List String) : Prop where
  vault : ∀ v ∈ db.vaults, v.id ∈ used
  marker : ∀ r ∈ db.retiredVaults, r.id ∈ used
  markers : Markers db

theorem Accounted.congr (h : Accounted db used) (hvaults : db'.vaults = db.vaults)
    (hretired : db'.retiredVaults = db.retiredVaults) : Accounted db' used := by
  obtain ⟨hvault, hmarker, hper, htotal, hdisjoint⟩ := h
  refine ⟨by rwa [hvaults], by rwa [hretired], by rwa [hretired], by rwa [hretired], ?_⟩
  simpa only [Database.hasVault, hvaults, hretired] using hdisjoint

theorem Accounted.step (h : Accounted s.db used) (hfresh : ∀ id ∈ request.newVault?, id ∉ used)
    (hstep : s.Step (request, t) s') :
    Accounted s'.db (request.newVault?.toList ++ used) := by
  have hnew : (VaultOperation.request request t).Fresh s.db :=
    fun id hid r hr heq => hfresh id hid (heq ▸ h.marker r hr)
  cases hstep with
  | rollback _ =>
    exact ⟨fun v hv => List.mem_append_right _ (h.vault v hv),
      fun r hr => List.mem_append_right _ (h.marker r hr), h.markers⟩
  | @commit _ _ answer s' hok =>
    have hexecute : (VaultOperation.request request t).execute s.db =
        .ok (some answer, s'.db) := by
      simp only [VaultOperation.execute, bind_eq_ok, pure_eq_ok, Prod.exists]
      exact ⟨_, _, hok, rfl⟩
    have hretire : s.Retire (.request request t) s' := .commit hexecute
    have hmarkers := hretire.markers h.markers hnew
    have hknown : ∀ id, s.db.hasVault id = true ∨ id ∈ request.newVault? →
        id ∈ request.newVault?.toList ++ used := by
      rintro id (hold | hnew)
      · obtain ⟨v, hv, rfl⟩ := hasVault_iff.mp hold
        exact List.mem_append_right _ (h.vault v hv)
      · exact List.mem_append_left _ (Option.mem_toList.mpr hnew)
    cases (execute_ok hok).markers s.constraints with
    | keep _ hretired hvaults =>
      refine ⟨fun v hv => hknown _ (hvaults _ (hasVault_iff.mpr ⟨v, hv, rfl⟩)), ?_, hmarkers⟩
      rw [hretired]
      exact fun r hr => List.mem_append_right _ (h.marker r hr)
    | retire _ _ hretires hvaults =>
      refine ⟨fun v hv => hknown _ (hvaults _ (hasVault_iff.mpr ⟨v, hv, rfl⟩)).1, ?_, hmarkers⟩
      intro r hr
      rw [hretires.markers] at hr
      rcases List.mem_append.mp hr with hr | hr
      · exact List.mem_append_right _
          (h.marker r (Retention.retain_sublist.subset (List.mem_of_mem_filter hr)))
      · obtain ⟨v, hv, hid, -⟩ := hretires.owned
        rw [List.mem_singleton.mp hr]
        exact hid ▸ List.mem_append_right _ (h.vault v hv)

/-- A vault that is gone does not come back. -/
theorem hasVault_eq_false_step (hfresh : ∀ id ∈ request.newVault?, id ∉ used)
    (hstep : s.Step (request, t) s') {id : String} (hused : id ∈ used)
    (hgone : s.db.hasVault id = false) : s'.db.hasVault id = false := by
  refine hasVault_eq_false_iff.mpr fun v' hv' hid => ?_
  obtain hnew | ⟨v, hv, hkept⟩ := vaultsContinue_step hstep v' hv'
  · exact hfresh _ hnew (hid ▸ hused)
  · exact hasVault_eq_false_iff.mp hgone v hv (hkept.id.trans hid)

end

/-! ## What stays true -/

/-- What a migration has seen when it found its source, as far as it still holds. -/
inductive Found (db : Database) (used drawn : List String) : Request → Prop where
  | intro {userId : Int} {tokenHash sourceId : String} {replacement : Vault} :
      replacement.id ∈ drawn → replacement.id ∉ used → replacement.encryptionVersion = 3 →
      replacement.size = 0 → sourceId ∈ used →
      (∀ v ∈ db.vaults, v.id = sourceId → v.encryptionVersion < 3) →
      Found db used drawn (.migrateVault userId tokenHash sourceId replacement)

structure Invariant (s : State) : Prop where
  accounted : Accounted s.store.db s.used
  drawn : ∀ id ∈ s.used, id ∈ s.drawn
  pending : ∀ request ∈ s.pending,
    request.waitsForCommit = true ∨ Found s.store.db s.used s.drawn request
  distinct : (s.pending.filterMap Request.newVault?).Nodup

section

variable {phc : PhcParser} {config : Config} {s s' : State} {a : Action} {actions : List Action}
  {request : Request}

/-- What the lookup of a migration finds. -/
theorem migrateVault_ok {userId : Int} {tokenHash : String} {fresh : Fresh} {v : Value}
    {seen : Database}
    (h : migrateVault config seen userId tokenHash fresh v = .ok request) :
    ∃ source ∈ seen.vaults, ∃ replacement : Vault,
      request = .migrateVault userId tokenHash source.id replacement ∧
      source.encryptionVersion < 3 ∧ replacement.id = fresh.id ∧
      replacement.name = source.name ∧ replacement.encryptionVersion = 3 ∧
      replacement.size = 0 := by
  simp only [migrateVault, bind_eq_ok, orReject_eq_ok, rejectIf_eq_ok, exists_unit, pure_eq_ok,
    not_le] at h
  obtain ⟨r, -, sourceId, -, -, credentials, -, source, hsource, hversion, rfl⟩ := h
  have hp := List.find?_some hsource
  simp only [Bool.and_eq_true, decide_eq_true_eq] at hp
  exact ⟨source, List.mem_of_find?_eq_some hsource, _, by rw [hp.1], hversion, rfl, rfl, rfl, rfl⟩

/-- Ids that a pending transaction makes a vault with are new. -/
theorem Invariant.fresh (h : Invariant s) (hpending : request ∈ s.pending) :
    ∀ id ∈ request.newVault?, id ∈ s.drawn ∧ id ∉ s.used := by
  intro id hid
  rcases h.pending request hpending with hwaits | hfound
  · rw [newVault?_of_waitsForCommit hwaits] at hid
    cases hid
  · cases hfound with
    | intro hdrawn hunused _ _ _ _ =>
      cases hid
      exact ⟨hdrawn, hunused⟩

/-- What a migration has seen outlasts the transactions of others. -/
theorem Found.step {store store' : Store} {used drawn drawn' : List String} {migration : Request}
    {t : Readings} (h : Found store.db used drawn migration)
    (hstep : store.Step (request, t) store') (hfresh : ∀ id ∈ request.newVault?, id ∉ used)
    (hother : ∀ id ∈ request.newVault?, id ∉ migration.newVault?) (hdrawn : drawn ⊆ drawn') :
    Found store'.db (request.newVault?.toList ++ used) drawn' migration := by
  cases h with
  | intro hin hunused hthree hsize hsource hseen =>
    refine .intro (hdrawn hin) ?_ hthree hsize (List.mem_append_right _ hsource) ?_
    · intro hused
      rcases List.mem_append.mp hused with hnew | hold
      · exact hother _ (Option.mem_toList.mp hnew) rfl
      · exact hunused hold
    · intro v' hv' hid
      obtain hnew | ⟨v, hv, hkept⟩ := vaultsContinue_step hstep v' hv'
      · exact absurd (hid ▸ hsource) (hfresh _ hnew)
      · exact hkept.encryption ▸ hseen v hv (hkept.id.trans hid)

/-- What a step keeps that leaves the vaults and the markers alone. -/
theorem Invariant.of_sublist (h : Invariant s)
    (hvaults : s'.store.db.vaults = s.store.db.vaults)
    (hretired : s'.store.db.retiredVaults = s.store.db.retiredVaults) (hused : s'.used = s.used)
    (hdrawn : s'.drawn = s.drawn) (hpending : s'.pending.Sublist s.pending) : Invariant s' := by
  refine ⟨?_, ?_, fun request hrequest => ?_, h.distinct.sublist (hpending.filterMap _)⟩
  · rw [hused]
    exact h.accounted.congr hvaults hretired
  · rw [hused, hdrawn]
    exact h.drawn
  · rw [hused, hdrawn]
    refine (h.pending request (hpending.subset hrequest)).imp_right fun hfound => ?_
    cases hfound with
    | intro hin hunused hthree hsize hsource hseen =>
      exact .intro hin hunused hthree hsize hsource (hvaults ▸ hseen)

/-- What a transaction keeps that makes no vault with the id of a pending one. -/
theorem Invariant.transacted (h : Invariant s) {t : Readings}
    (hstep : s.store.Step (request, t) s'.store)
    (hused : s'.used = request.newVault?.toList ++ s.used) (hdrawn : s.drawn ⊆ s'.drawn)
    (hfresh : ∀ id ∈ request.newVault?, id ∈ s'.drawn ∧ id ∉ s.used)
    (hpending : s'.pending.Sublist s.pending)
    (hother : ∀ id ∈ request.newVault?, id ∉ s'.pending.filterMap Request.newVault?) :
    Invariant s' := by
  have hunused := fun id hid => (hfresh id hid).2
  refine ⟨?_, ?_, fun migration hmigration => ?_, h.distinct.sublist (hpending.filterMap _)⟩
  · rw [hused]
    exact h.accounted.step hunused hstep
  · rw [hused]
    intro id hid
    rcases List.mem_append.mp hid with hid | hid
    · exact (hfresh id (Option.mem_toList.mp hid)).1
    · exact hdrawn (h.drawn id hid)
  · rw [hused]
    refine (h.pending migration (hpending.subset hmigration)).imp_right fun hfound => ?_
    refine hfound.step hstep hunused (fun id hid hsame => hother id hid ?_) hdrawn
    exact List.mem_filterMap.mpr ⟨migration, hmigration, hsame⟩

/-- What the transaction of a pending request keeps. -/
theorem Invariant.transacted_pending (h : Invariant s) {t : Readings} (before after : List Request)
    (hpending : s.pending = before ++ request :: after) (hpending' : s'.pending = before ++ after)
    (hstep : s.store.Step (request, t) s'.store)
    (hused : s'.used = request.newVault?.toList ++ s.used) (hdrawn : s'.drawn = s.drawn) :
    Invariant s' := by
  have hdistinct := h.distinct
  refine h.transacted hstep hused (hdrawn ▸ List.Subset.refl _) ?_ ?_ fun id hid hin => ?_
  · rw [hdrawn]
    exact h.fresh (hpending ▸ List.mem_append_right _ List.mem_cons_self)
  · rw [hpending, hpending']
    exact (List.Sublist.refl _).append (List.sublist_cons_self _ _)
  · rw [hpending, List.filterMap_append, List.filterMap_cons_some hid,
      List.nodup_middle] at hdistinct
    rw [hpending', List.filterMap_append] at hin
    exact (List.nodup_cons.mp hdistinct).1 hin

/-- The transaction of the holder is the first of the pending ones. -/
theorem pending_of_lock {holder : Holder} (hlock : s.lock = some holder)
    (hrequest : holder.request? = some request) : s.pending = request :: s.detached := by
  rw [State.pending, hlock, Option.bind_some, hrequest]
  rfl

theorem Invariant.step (h : Invariant s) (hstep : Step phc config s a s') : Invariant s' := by
  have hdetached : s.detached.Sublist s.pending := List.sublist_append_right _ _
  cases hstep with
  | account haccount =>
    have hframe := haccount.effect.frame
    exact h.of_sublist (congrArg (·.vaults) hframe) (congrArg (·.retiredVaults) hframe) rfl rfl
      (List.Sublist.refl _)
  | @unlocked request t store' hunlocked hfresh hstore =>
    refine h.transacted hstore rfl (List.subset_append_right _ _) (fun id hid => ?_)
      (List.Sublist.refl _) fun id hid hin => ?_
    · exact ⟨List.mem_append_left _ (Option.mem_toList.mpr hid),
        fun hused => hfresh id hid (h.drawn id hused)⟩
    · obtain ⟨migration, hmigration, hsame⟩ := List.mem_filterMap.mp hin
      exact hfresh id hid (h.fresh hmigration id hsame).1
  | @lockRequest request hlock hwaits =>
    refine ⟨h.accounted, h.drawn, fun other hother => ?_, ?_⟩
    · rcases List.mem_cons.mp hother with rfl | hother
      · exact .inl hwaits
      · exact h.pending other (hdetached.subset hother)
    · have hnone := newVault?_of_waitsForCommit hwaits
      change ((request :: s.detached).filterMap Request.newVault?).Nodup
      rw [List.filterMap_cons_none hnone]
      exact h.distinct.sublist (hdetached.filterMap _)
  | lockMigrate _ => exact h.of_sublist rfl rfl rfl rfl hdetached
  | @look userId tokenHash v fresh request hlock hfresh hfound =>
    have hnew := migrateVault_ok hfound
    obtain ⟨source, hsource, replacement, rfl, hversion, hid, hname, hthree, hsize⟩ := hnew
    refine ⟨h.accounted, fun id hid => List.mem_cons_of_mem _ (h.drawn id hid),
      fun other hother => ?_, ?_⟩
    · rcases List.mem_cons.mp hother with rfl | hother
      · refine .inr (.intro ?_ ?_ hthree hsize (h.accounted.vault source hsource) ?_)
        · exact hid ▸ List.mem_cons_self
        · exact fun hused => hfresh (h.drawn _ (hid ▸ hused))
        · intro v hv hvid
          rw [s.store.constraints.eq_of_vaultId hv hsource hvid]
          exact hversion
      · refine (h.pending other (hdetached.subset hother)).imp_right fun hfound => ?_
        cases hfound with
        | intro hin hunused hthree hsize hsource hseen =>
          exact .intro (List.mem_cons_of_mem _ hin) hunused hthree hsize hsource hseen
    · refine List.nodup_cons.mpr ⟨fun hin => ?_, h.distinct.sublist (hdetached.filterMap _)⟩
      obtain ⟨migration, hmigration, hsame⟩ := List.mem_filterMap.mp hin
      exact hfresh (hid ▸ (h.fresh (hdetached.subset hmigration) _ hsame).1)
  | reject _ _ => exact h.of_sublist rfl rfl rfl rfl hdetached
  | transact hlock hrequest hstore =>
    exact h.transacted_pending [] s.detached (pending_of_lock hlock hrequest) rfl hstore rfl rfl
  | unlock => exact h.of_sublist rfl rfl rfl rfl hdetached
  | detach hlock hrequest =>
    exact h.of_sublist rfl rfl rfl rfl (pending_of_lock hlock hrequest ▸ List.Sublist.refl _)
  | @transactDetached before after request t store' hsplit hstore =>
    refine h.transacted_pending ((s.lock.bind Holder.request?).toList ++ before) after ?_ ?_ hstore
      rfl rfl
    · rw [State.pending, hsplit, List.append_assoc]
    · exact (List.append_assoc _ _ _).symm

theorem Invariant.run (h : Invariant s) (hrun : Run (Step phc config) s actions s') :
    Invariant s' :=
  Run.invariant (I := Invariant) (fun hbefore hstep => hbefore.step hstep) h hrun

/-- A server that has just opened a database. -/
theorem invariant_of_verified {phc : PhcParser} {store : Store} {now : Int}
    {used drawn : List String} (h : Database.verifyConnection phc store.db now = .ok ())
    (hvault : ∀ v ∈ store.db.vaults, v.id ∈ used)
    (hmarker : ∀ r ∈ store.db.retiredVaults, r.id ∈ used) (hdrawn : ∀ id ∈ used, id ∈ drawn) :
    Invariant ⟨store, none, [], used, drawn⟩ := by
  have hversion := (verifyRecordedSchema_ok.mp (verifyConnection_ok.mp h)).2.2.2.2
  have hmarkers : Markers store.db :=
    hversion.logical.markers ((hversion.tables _).mpr (by decide))
  exact ⟨⟨hvault, hmarker, hmarkers⟩, hdrawn, List.forall_mem_nil _, List.nodup_nil⟩

/-- The transactions that are run are pending ones. -/
theorem pending_of_transact {t : Readings} (hstep : Step phc config s (.transact request t) s') :
    request ∈ s.pending ∧ s.store.Step (request, t) s'.store ∧
      s'.used = request.newVault?.toList ++ s.used := by
  cases hstep with
  | transact hlock hrequest hstore =>
    rw [pending_of_lock hlock hrequest]
    exact ⟨List.mem_cons_self, hstore, rfl⟩
  | transactDetached hsplit hstore =>
    rw [State.pending, hsplit]
    exact ⟨List.mem_append_right _ (List.mem_append_right _ List.mem_cons_self), hstore, rfl⟩

/-- A step is one transaction, which gives no used id to a vault, or leaves the vaults alone. -/
theorem Invariant.transaction (h : Invariant s) (hstep : Step phc config s a s') :
    (s'.store.db.vaults = s.store.db.vaults ∧ s'.used = s.used) ∨
      ∃ request t, (a = .unlocked request t ∨ a = .transact request t) ∧
        s.store.Step (request, t) s'.store ∧ (∀ id ∈ request.newVault?, id ∉ s.used) ∧
        s'.used = request.newVault?.toList ++ s.used := by
  cases a with
  | account op now =>
    cases hstep with
    | account haccount => exact .inl ⟨congrArg (·.vaults) haccount.effect.frame, rfl⟩
  | unlocked request t =>
    cases hstep with
    | unlocked _ hfresh hstore =>
      have hunused := fun id hid hused => hfresh id hid (h.drawn id hused)
      exact .inr ⟨_, _, .inl rfl, hstore, hunused, rfl⟩
  | transact request t =>
    obtain ⟨hpending, hstore, hused⟩ := pending_of_transact hstep
    exact .inr ⟨_, _, .inr rfl, hstore, fun id hid => (h.fresh hpending id hid).2, hused⟩
  | lock _ | look _ | unlock | detach => cases hstep <;> exact .inl ⟨rfl, rfl⟩

theorem Invariant.used_step (h : Invariant s) (hstep : Step phc config s a s') :
    s.used ⊆ s'.used := by
  obtain ⟨-, hused⟩ | ⟨request, t, -, -, -, hused⟩ := h.transaction hstep
  · exact hused ▸ List.Subset.refl _
  · exact hused ▸ List.subset_append_right _ _

theorem Invariant.gone_step (h : Invariant s) (hstep : Step phc config s a s') {id : String}
    (hused : id ∈ s.used) (hgone : s.store.db.hasVault id = false) :
    s'.store.db.hasVault id = false := by
  obtain ⟨hsame, -⟩ | ⟨request, t, -, hstore, hfresh, -⟩ := h.transaction hstep
  · rwa [Database.hasVault, hsame]
  · exact hasVault_eq_false_step hfresh hstore hused hgone

/-- A vault that was there and is gone never comes back. -/
theorem Invariant.gone_run (h : Invariant s) (hrun : Run (Step phc config) s actions s')
    {id : String} (hused : id ∈ s.used) (hgone : s.store.db.hasVault id = false) :
    s'.store.db.hasVault id = false := by
  have hend : Invariant s' ∧ id ∈ s'.used ∧ s'.store.db.hasVault id = false := by
    refine Run.invariant
      (I := fun s : State => Invariant s ∧ id ∈ s.used ∧ s.store.db.hasVault id = false) ?_
      ⟨h, hused, hgone⟩ hrun
    rintro s a s' ⟨hbefore, hused, hgone⟩ hstep
    exact ⟨hbefore.step hstep, hbefore.used_step hstep hused, hbefore.gone_step hstep hused hgone⟩
  exact hend.2.2

theorem Invariant.name_step (h : Invariant s) (hstep : Step phc config s a s') {id name : String}
    (hnot : a.renames? ≠ some id) (hused : id ∈ s.used)
    (hname : ∀ v ∈ s.store.db.vaults, v.id = id → v.name = name) :
    ∀ v ∈ s'.store.db.vaults, v.id = id → v.name = name := by
  obtain ⟨hsame, -⟩ | ⟨request, t, hlabel, hstore, hfresh, -⟩ := h.transaction hstep
  · exact hsame ▸ hname
  have hrequest : request.renames? ≠ some id := by
    rcases hlabel with rfl | rfl <;> exact hnot
  intro v' hv' hid
  obtain hnew | ⟨v, hv, hkept⟩ := vaultsContinue_step hstore v' hv'
  · exact absurd (hid ▸ hused) (hfresh _ hnew)
  · have hvid := hkept.id.trans hid
    exact (hkept.name (hvid ▸ hrequest)).symm.trans (hname v hv hvid)

/-- A vault keeps its name as long as it is not renamed. -/
theorem Invariant.name_run (h : Invariant s) (hrun : Run (Step phc config) s actions s')
    {id name : String} (hnot : ∀ a ∈ actions, a.renames? ≠ some id) (hused : id ∈ s.used)
    (hname : ∀ v ∈ s.store.db.vaults, v.id = id → v.name = name) :
    ∀ v ∈ s'.store.db.vaults, v.id = id → v.name = name := by
  induction hrun with
  | nil s => exact hname
  | cons hstep _ ih =>
    obtain ⟨hfirst, hrest⟩ := List.forall_mem_cons.mp hnot
    exact ih (h.step hstep) hrest (h.used_step hstep hused) (h.name_step hstep hfirst hused hname)

/-! ## The replacement -/

/-- A push that was accepted for a vault commits only while the vault exists. -/
theorem hasVault_of_pushRequest {db : Database} (hc : Constraints db) {session : Session}
    {v : Value} {revision : NewRevision} {file : Blob} {t : Readings} {result : Answer × Database}
    (hadmitted : beginPush config session v = .ok revision)
    (hok : (pushRequest config session revision file).execute db t = .ok result) :
    db.hasVault session.vault = true := by
  have hrelated : Related db revision.userId revision.vaultId := by
    obtain ⟨answer, db'⟩ := result
    unfold pushRequest at hok
    split at hok
    · cases execute_ok hok with
      | addEmptyRevision h =>
        exact (vaultAccess_isSome_iff hc).mp (addEmptyRevisionInternal_ok h).1.access
    · cases execute_ok hok with
      | addFileRevision h =>
        exact (vaultAccess_isSome_iff hc).mp (addFileRevisionInternal_ok h).1.access
  obtain ⟨w, hw, hid, -⟩ := hrelated
  exact hasVault_iff.mpr ⟨w, hw, hid.trans (DataPlane.beginPush_own hadmitted).1⟩

/-- `source` of `userId` has been replaced by `new`, and nothing else has changed, except that
the owner's oldest marker may have made room. -/
structure Replaced (db : Database) (userId now : Int) (used : List String)
    (source new : VaultRow) (db' : Database) : Prop where
  source_mem : source ∈ db.vaults
  source_owner : source.ownerUserId = userId
  source_version : source.encryptionVersion < 3
  new_id : new.id ∉ used
  new_owner : new.ownerUserId = userId
  new_encryption : new.encryptionVersion = 3
  new_version : new.version = 0
  new_size : new.size = 0
  vaults : db'.vaults = (db.vaults.filter fun v => v.id ≠ source.id) ++ [new]
  revisions : db'.revisions = db.revisions.filter fun r => r.vaultId ≠ source.id
  contents : ∀ c, c ∈ db'.revisionContent ↔ c ∈ db.revisionContent ∧
    ∀ r ∈ db.revisions, r.uid = c.uid → r.vaultId ≠ source.id
  members : (db'.memberships.filter fun m => m.vaultId = new.id) =
    (db.activeMemberships source.id).map fun m => { m with vaultId := new.id }
  otherMembers : (db'.memberships.filter fun m => m.vaultId ≠ new.id) =
    db.memberships.filter fun m => m.vaultId ≠ source.id
  marker : { id := source.id, ownerUserId := userId, retiredAt := now } ∈ db'.retiredVaults
  markers : ∀ r ∈ db'.retiredVaults, r.id ≠ source.id → r ∈ db.retiredVaults
  forgotten : ∀ r ∈ db.retiredVaults, r ∉ db'.retiredVaults →
    r.ownerUserId = userId ∧ (countOf db.retiredVaults userId : Int) = maxRetiredVaultsPerOwner ∧
      ∀ k ∈ db.retiredVaults, k.ownerUserId = userId → k.newerThan r
  storageUsage : db'.runtimeStorageUsage = db.runtimeStorageUsage.map
    (· - sumOf (·.size) (db.revisions.filter fun r => r.vaultId = source.id))
  rest : db'.users = db.users ∧ db'.sessions = db.sessions ∧
    db'.serverSettings = db.serverSettings ∧ db'.sqliteSequence = db.sqliteSequence ∧
    db'.schemaMigrations = db.schemaMigrations ∧ db'.tables = db.tables

/-- Only an owner who has as many markers as there may be loses one, and that the oldest. -/
theorem forgotten_of_retirement {db db' : Database} {marker : RetiredVaultRow} {new : List String}
    (h : Retirement db [marker] new db') (hc : Constraints db) (hm : Markers db)
    {r : RetiredVaultRow} (hr : r ∈ db.retiredVaults) (hgone : r ∉ db'.retiredVaults) :
    r.ownerUserId = marker.ownerUserId ∧
      (countOf db.retiredVaults marker.ownerUserId : Int) = maxRetiredVaultsPerOwner ∧
      ∀ k ∈ db.retiredVaults, k.ownerUserId = marker.ownerUserId → k.newerThan r := by
  obtain ⟨⟨m, hmem, howner⟩, hkept, hnewer⟩ := h.dropped hc hm hr hgone
  rw [List.mem_singleton.mp hmem] at howner
  rw [← howner, countOf_singleton, if_pos rfl, ← h.filter_kept hm] at hkept
  -- the owner's markers fall into those that stay and those that go, of which there is one
  have hsplit := List.length_eq_length_filter_add (l := db.retiredVaults.filter
    (ownedBy marker.ownerUserId)) fun k => decide (k ∈ db'.retiredVaults)
  have hbound := hm.perOwner marker.ownerUserId
  rw [List.filter_comm] at hkept
  have hgoes : ∀ k ∈ db.retiredVaults, k.ownerUserId = marker.ownerUserId →
      k ∉ db'.retiredVaults → k ∈ (db.retiredVaults.filter (ownedBy marker.ownerUserId)).filter
        fun k => !decide (k ∈ db'.retiredVaults) := by
    intro k hk hkowner hkgone
    refine List.mem_filter.mpr ⟨List.mem_filter.mpr ⟨hk, ownedBy_iff.mpr hkowner⟩, ?_⟩
    simpa using hkgone
  have hrgoes := hgoes r hr howner.symm hgone
  have hpos := List.length_pos_of_mem hrgoes
  have hone : ((db.retiredVaults.filter (ownedBy marker.ownerUserId)).filter
      fun k => !decide (k ∈ db'.retiredVaults)).length = 1 := by omega
  refine ⟨howner.symm, by unfold countOf; omega, fun k hk hkowner => ?_⟩
  by_cases hstays : k ∈ db'.retiredVaults
  · exact hnewer k hk hstays (hkowner.trans howner)
  · obtain ⟨only, honly⟩ := List.length_eq_one_iff.mp hone
    have hkgoes := hgoes k hk hkowner hstays
    rw [honly] at hrgoes hkgoes
    rw [List.mem_singleton.mp hrgoes, List.mem_singleton.mp hkgoes]
    exact .inr ⟨rfl, le_rfl⟩

/-- The markers after a migration that succeeded. -/
theorem markers_of_migrate {db db' : Database} {t : Readings} {userId : Int}
    {tokenHash sourceId : String} {replacement : Vault} (hc : Constraints db) (hm : Markers db)
    (h : MarkerEffect db t (.migrateVault userId tokenHash sourceId replacement) (.flag true) db') :
    { id := sourceId, ownerUserId := userId, retiredAt := t.now } ∈ db'.retiredVaults ∧
      (∀ r ∈ db'.retiredVaults, r.id ≠ sourceId → r ∈ db.retiredVaults) ∧
      ∀ r ∈ db.retiredVaults, r ∉ db'.retiredVaults → r.ownerUserId = userId ∧
        (countOf db.retiredVaults userId : Int) = maxRetiredVaultsPerOwner ∧
        ∀ k ∈ db.retiredVaults, k.ownerUserId = userId → k.newerThan r := by
  cases h with
  | keep hnot => cases (hnot sourceId rfl).2
  | @retire id hid _ hretires hvaults =>
    cases hid
    have hretirement : Retirement db [⟨sourceId, userId, t.now⟩] [replacement.id] db' := by
      refine hretires.retirement hm fun x hx => ?_
      obtain ⟨hknown, hne⟩ := hvaults x hx
      refine ⟨hknown.imp_right fun hnew => ?_, hne⟩
      cases hnew
      exact List.mem_singleton_self _
    refine ⟨?_, ?_, fun r hr hgone => forgotten_of_retirement hretirement hc hm hr hgone⟩
    · exact hretirement.retiredVaults.mem_iff.mpr (List.mem_append_right _ List.mem_cons_self)
    · intro r hr hne
      rcases List.mem_append.mp (hretirement.retiredVaults.mem_iff.mp hr) with hkept | hnew
      · exact List.mem_of_mem_filter hkept
      · rw [List.mem_singleton.mp hnew] at hne
        exact absurd rfl hne

section

variable {userId : Int} {tokenHash sourceId : String} {replacement : Vault} {t : Readings}

/-- A migration runs its transaction after it has found its source. -/
theorem Invariant.found_of_transact (h : Invariant s)
    (hstep : Step phc config s
      (.transact (.migrateVault userId tokenHash sourceId replacement) t) s') :
    Found s.store.db s.used s.drawn (.migrateVault userId tokenHash sourceId replacement) ∧
      s.store.Step (.migrateVault userId tokenHash sourceId replacement, t) s'.store := by
  obtain ⟨hpending, hstore, -⟩ := pending_of_transact hstep
  exact ⟨(h.pending _ hpending).resolve_left Bool.false_ne_true, hstore⟩

/-- The transaction of a migration that has found its source. -/
theorem Found.replaced {db' : Database} (hinv : Invariant s)
    (hfound : Found s.store.db s.used s.drawn
      (.migrateVault userId tokenHash sourceId replacement))
    (hok : (Request.migrateVault userId tokenHash sourceId replacement).execute s.store.db t =
      .ok (.flag true, db')) :
    ∃ source new, source.id = sourceId ∧ new.name = replacement.name ∧
      Replaced s.store.db userId t.now s.used source new db' := by
  have hc := s.store.constraints
  cases hfound with
  | intro _ hunused hthree hsize _ hseen =>
    have hmarkers := (execute_ok hok).markers hc
    cases execute_ok hok with
    | migrateVault hmigrate =>
      obtain ⟨howned, hfresh, rfl⟩ := migrateVaultInternal_replaces hc hmigrate
      obtain ⟨source, hsource, rfl, howner⟩ := ownsVault_iff.mp howned
      obtain ⟨hmarker, hold, hforgotten⟩ :=
        markers_of_migrate hc hinv.accounted.markers hmarkers
      exact ⟨source, replacement.toRow userId, rfl, rfl,
        { source_mem := hsource
          source_owner := howner
          source_version := hseen source hsource rfl
          new_id := hunused
          new_owner := rfl
          new_encryption := hthree
          new_version := rfl
          new_size := hsize
          vaults := rfl
          revisions := rfl
          contents := fun c => by
            simp [Database.replaceVault, imp.swap]
          members := memberships_replaceVault hc hfresh t.now
          otherMembers := otherMemberships_replaceVault hc hfresh t.now
          marker := hmarker
          markers := hold
          forgotten := hforgotten
          storageUsage := rfl
          rest := ⟨rfl, rfl, rfl, rfl, rfl, rfl⟩ }⟩

/-- A migration that does not succeed changes nothing, whether it fails or answers `false`. -/
theorem unchanged_of_migrate {store store' : Store}
    (hstore : store.Step (.migrateVault userId tokenHash sourceId replacement, t) store')
    (hnot : ∀ db', (Request.migrateVault userId tokenHash sourceId replacement).execute store.db t ≠
      .ok (.flag true, db')) :
    store'.db = store.db := by
  cases hstore with
  | rollback _ => rfl
  | commit hok =>
    cases hmigrate : execute_ok hok with
    | @migrateVault _ _ _ _ migrated _ h =>
      obtain ⟨-, ⟨-, -, hsame⟩ | ⟨rfl, -⟩⟩ := migrateVaultInternal_ok h
      · exact hsame
      · exact absurd hok (hnot _)

end

/-- What holds of migrations in a state of the server, whether their handlers still hold the lock
or were dropped. -/
structure Laws (phc : PhcParser) (config : Config) (s : State) : Prop where
  /-- A migration that succeeds replaces its source. -/
  succeeded {userId : Int} {tokenHash sourceId : String} {replacement : Vault} {t : Readings}
    {s' : State} :
    Step phc config s (.transact (.migrateVault userId tokenHash sourceId replacement) t) s' →
    (Request.migrateVault userId tokenHash sourceId replacement).execute s.store.db t =
      .ok (.flag true, s'.store.db) →
    ∃ source new, source.id = sourceId ∧ new.name = replacement.name ∧
      Replaced s.store.db userId t.now s.used source new s'.store.db
  /-- One that does not succeed changes nothing. -/
  failed {userId : Int} {tokenHash sourceId : String} {replacement : Vault} {t : Readings}
    {s' : State} :
    Step phc config s (.transact (.migrateVault userId tokenHash sourceId replacement) t) s' →
    (∀ db', (Request.migrateVault userId tokenHash sourceId replacement).execute s.store.db t ≠
      .ok (.flag true, db')) → s'.store.db = s.store.db
  /-- The lookup changes nothing either, and the replacement is named as the source is then. -/
  looked {fresh : Fresh} {s₁ : State} : Step phc config s (.look fresh) s₁ →
    s₁.store = s.store ∧
      ∀ userId tokenHash sourceId replacement,
        s₁.lock = some (.found (.migrateVault userId tokenHash sourceId replacement)) →
        ∃ v ∈ s.store.db.vaults, v.id = sourceId ∧ v.name = replacement.name
  /-- It is the name of the source until the source is renamed. -/
  named {fresh : Fresh} {s₁ s₂ : State} {actions : List Action} {userId : Int}
    {tokenHash sourceId : String} {replacement : Vault} {v : VaultRow} :
    Step phc config s (.look fresh) s₁ →
    s₁.lock = some (.found (.migrateVault userId tokenHash sourceId replacement)) →
    Run (Step phc config) s₁ actions s₂ → (∀ a ∈ actions, a.renames? ≠ some sourceId) →
    v ∈ s₂.store.db.vaults → v.id = sourceId → v.name = replacement.name
  /-- No migration removes a vault with encryption version 3. -/
  version3 {userId : Int} {tokenHash sourceId : String} {replacement : Vault} {t : Readings}
    {s' : State} {v : VaultRow} :
    Step phc config s (.transact (.migrateVault userId tokenHash sourceId replacement) t) s' →
    v ∈ s.store.db.vaults → v.encryptionVersion = 3 → v ∈ s'.store.db.vaults
  /-- A push that was accepted for the source does not commit any more. -/
  late {userId : Int} {tokenHash sourceId : String} {replacement : Vault} {t t' : Readings}
    {s₁ s₂ : State} {actions : List Action} {session : Session} {v : Value}
    {revision : NewRevision} {file : Blob} {result : Answer × Database} :
    Step phc config s (.transact (.migrateVault userId tokenHash sourceId replacement) t) s₁ →
    (Request.migrateVault userId tokenHash sourceId replacement).execute s.store.db t =
      .ok (.flag true, s₁.store.db) →
    Run (Step phc config) s₁ actions s₂ → session.vault = sourceId →
    beginPush config session v = .ok revision →
    (pushRequest config session revision file).execute s₂.store.db t' ≠ .ok result

/-- What a lookup that succeeds has seen. -/
theorem name_of_look {fresh : Fresh} {userId : Int} {tokenHash sourceId : String}
    {replacement : Vault} (hstep : Step phc config s (.look fresh) s')
    (hlock : s'.lock = some (.found (.migrateVault userId tokenHash sourceId replacement))) :
    ∃ v ∈ s.store.db.vaults, v.id = sourceId ∧ v.name = replacement.name := by
  cases hstep with
  | look _ _ hfound =>
    cases hlock
    obtain ⟨source, hsource, replacement, heq, -, -, hname, -⟩ := migrateVault_ok hfound
    cases heq
    exact ⟨source, hsource, rfl, hname.symm⟩
  | reject _ _ => cases hlock

theorem store_of_look {fresh : Fresh} (hstep : Step phc config s (.look fresh) s') :
    s'.store = s.store := by
  cases hstep <;> rfl

/-- From a verified database, over every interleaving. -/
theorem migration_is_atomic {store : Store} {now : Int} {used drawn : List String}
    (h : Database.verifyConnection phc store.db now = .ok ())
    (hvault : ∀ v ∈ store.db.vaults, v.id ∈ used)
    (hmarker : ∀ r ∈ store.db.retiredVaults, r.id ∈ used) (hdrawn : ∀ id ∈ used, id ∈ drawn)
    (hrun : Run (Step phc config) ⟨store, none, [], used, drawn⟩ actions s) :
    Laws phc config s := by
  have hinv : Invariant s := (invariant_of_verified h hvault hmarker hdrawn).run hrun
  refine ⟨?_, ?_, ?_, ?_, ?_, ?_⟩
  · intro userId tokenHash sourceId replacement t s' hstep hok
    exact (hinv.found_of_transact hstep).1.replaced hinv hok
  · intro userId tokenHash sourceId replacement t s' hstep hnot
    exact unchanged_of_migrate (hinv.found_of_transact hstep).2 hnot
  · intro fresh s₁ hstep
    exact ⟨store_of_look hstep, fun _ _ _ _ hlock => name_of_look hstep hlock⟩
  · intro fresh s₁ s₂ actions userId tokenHash sourceId replacement v hstep hlock hlater hnot hv hid
    obtain ⟨source, hsource, rfl, hname⟩ := name_of_look hstep hlock
    have hused := hinv.used_step hstep (hinv.accounted.vault source hsource)
    refine (hinv.step hstep).name_run hlater hnot hused (fun w hw hwid => ?_) v hv hid
    rw [store_of_look hstep] at hw
    rw [s.store.constraints.eq_of_vaultId hw hsource hwid, hname]
  · intro userId tokenHash sourceId replacement t s' v hstep hv hthree
    obtain ⟨hfound, hstore⟩ := hinv.found_of_transact hstep
    by_cases hok : ∃ db', (Request.migrateVault userId tokenHash sourceId replacement).execute
        s.store.db t = .ok (.flag true, db')
    · obtain ⟨db', hok⟩ := hok
      obtain ⟨source, new, -, -, hreplaced⟩ := hfound.replaced hinv hok
      rw [hstore.db_eq hok, hreplaced.vaults]
      refine List.mem_append_left _ (List.mem_filter.mpr ⟨hv, decide_eq_true fun hid => ?_⟩)
      have hsame := s.store.constraints.eq_of_vaultId hv hreplaced.source_mem hid
      have hversion := hreplaced.source_version
      rw [← hsame, hthree] at hversion
      exact absurd hversion (lt_irrefl 3)
    · rw [unchanged_of_migrate hstore (not_exists.mp hok)]
      exact hv
  · intro userId tokenHash sourceId replacement t t' s₁ s₂ actions session v revision file result
      hstep hok hlater hsession hadmitted hcommits
    obtain ⟨source, new, rfl, -, hreplaced⟩ :=
      (hinv.found_of_transact hstep).1.replaced hinv hok
    have hsource := hinv.accounted.vault source hreplaced.source_mem
    have hgone : s₁.store.db.hasVault source.id = false := by
      refine hasVault_eq_false_iff.mpr fun w hw => ?_
      rw [hreplaced.vaults] at hw
      rcases List.mem_append.mp hw with hw | hw
      · exact of_decide_eq_true (List.mem_filter.mp hw).2
      · rw [List.mem_singleton.mp hw]
        exact fun heq => hreplaced.new_id (heq ▸ hsource)
    have hstill := (hinv.step hstep).gone_run hlater (hinv.used_step hstep hsource) hgone
    rw [← hsession, hasVault_of_pushRequest s₂.store.constraints hadmitted hcommits] at hstill
    cases hstill

end

/-! ## A vault with an older encryption version -/

/-- Only the markers are other ones. -/
theorem verifyConnection_of_markers {phc : PhcParser} {db : Database} {now : Int}
    {rows : List RetiredVaultRow} (h : Database.verifyConnection phc db now = .ok ())
    (hvalid : ∀ r ∈ rows, r.Valid true) (howner : ∀ r ∈ rows, db.hasUser r.ownerUserId = true)
    (hcount : (rows.length : Int) ≤ maxRetiredVaultsPerOwner)
    (hdisjoint : ∀ r ∈ rows, db.hasVault r.id = false) :
    Database.verifyConnection phc { db with retiredVaults := rows } now = .ok () := by
  obtain ⟨htable, hne, hhistory, hlast, hversion⟩ :=
    verifyRecordedSchema_ok.mp (verifyConnection_ok.mp h)
  have hper : ∀ owner, ((rows.filter fun r => r.ownerUserId = owner).length : Int) ≤
      maxRetiredVaultsPerOwner := by
    intro owner
    have := List.length_filter_le (fun r : RetiredVaultRow => decide (r.ownerUserId = owner)) rows
    omega
  have htotal : (rows.length : Int) ≤ maxRetiredVaults := hcount.trans (by decide)
  have hkeys := hversion.foreignKeys
  exact verifyConnection_ok.mpr (verifyRecordedSchema_ok.mpr ⟨htable, hne, hhistory, hlast,
    { hversion with
      foreignKeys := ⟨hkeys.1, hkeys.2.1, fun hfive => ⟨(hkeys.2.2.1 hfive).1,
        (hkeys.2.2.1 hfive).2.1, (hkeys.2.2.1 hfive).2.2.1, howner⟩, hkeys.2.2.2⟩
      logical :=
        { hversion.logical with
          retired := fun _ => hvalid
          retiredPerOwner := fun _ _ r _ => hper r.ownerUserId
          retiredCount := fun _ => htotal
          disjoint := fun _ => hdisjoint }
      v7 := fun hseven => { hversion.v7 hseven with } }⟩)

/-- The personal server before its vault is migrated, with the markers of earlier vaults. -/
def unmigratedServer (rows : List RetiredVaultRow) : Database :=
  { personalServer with
    vaults := personalServer.vaults.map fun v => { v with encryptionVersion := 2 }
    retiredVaults := rows }

theorem retiredVaults_unmigratedServer (rows : List RetiredVaultRow) :
    (unmigratedServer rows).retiredVaults = rows := rfl

/-- The markers of as many vaults as one owner may have markers of, the newest first. -/
def allMarkers : List RetiredVaultRow :=
  (List.range 512).map fun k =>
    { id := String.singleton (Char.ofNat (k + 256)), ownerUserId := 1, retiredAt := 512 - k }

theorem constraints_unmigratedServer {rows : List RetiredVaultRow} (hids : (rows.map (·.id)).Nodup)
    (howner : ∀ r ∈ rows, r.ownerUserId = 1) : Constraints (unmigratedServer rows) := by
  have huser : ∀ r ∈ rows, (unmigratedServer rows).hasUser r.ownerUserId = true := by
    intro r hr
    rw [howner r hr]
    rfl
  have hbase : Constraints (unmigratedServer []) := by constructor <;> decide
  exact { hbase with
    retiredId := hids
    retiredOwner := huser }

theorem verifyConnection_unmigratedServer {rows : List RetiredVaultRow}
    (hrows : ∀ r ∈ rows, r.Valid true ∧ r.ownerUserId = 1 ∧ r.id ≠ "vault")
    (hcount : (rows.length : Int) ≤ maxRetiredVaultsPerOwner) :
    Database.verifyConnection onePhc (unmigratedServer rows) 500 = .ok () := by
  have hfirst : Database.verifyConnection onePhc (unmigratedServer []) 500 = .ok () := by
    decide +kernel
  have hsame : unmigratedServer rows = { unmigratedServer [] with retiredVaults := rows } := rfl
  rw [hsame]
  refine verifyConnection_of_markers hfirst (fun r hr => (hrows r hr).1) ?_ hcount ?_
  · intro r hr
    rw [(hrows r hr).2.1]
    rfl
  · intro r hr
    refine hasVault_eq_false_iff.mpr fun v hv => ?_
    rw [List.mem_singleton.mp hv]
    exact (hrows r hr).2.2.symm

theorem toNat_markerChar {k : Nat} (hk : k < 512) : (Char.ofNat (k + 256)).toNat = k + 256 := by
  have hvalid : (k + 256).isValidChar := .inl (by omega)
  have hchar : Char.ofNat (k + 256) = Char.ofNatAux (k + 256) hvalid := dif_pos hvalid
  rw [hchar]
  rfl

theorem nodup_allMarkers : (allMarkers.map (·.id)).Nodup := by
  rw [allMarkers, List.map_map]
  refine List.Nodup.map_on (fun k hk j hj hid => ?_) List.nodup_range
  have hchar : Char.ofNat (k + 256) = Char.ofNat (j + 256) := by
    simpa using congrArg String.toList hid
  have hcode := congrArg Char.toNat hchar
  rw [toNat_markerChar (List.mem_range.mp hk), toNat_markerChar (List.mem_range.mp hj)] at hcode
  omega

/-- The vaults of the markers are named by one character. -/
theorem toList_of_mem_allMarkers {r : RetiredVaultRow} (hr : r ∈ allMarkers) :
    ∃ c, r.id.toList = [c] ∧ c ≠ Text.nul := by
  obtain ⟨k, hk, rfl⟩ := List.mem_map.mp hr
  refine ⟨Char.ofNat (k + 256), String.toList_singleton _, fun hnul => ?_⟩
  have hcode := toNat_markerChar (List.mem_range.mp hk)
  rw [hnul] at hcode
  exact absurd hcode (by simp [Text.nul])

theorem valid_of_mem_allMarkers {r : RetiredVaultRow} (hr : r ∈ allMarkers) : r.Valid true := by
  obtain ⟨c, hc, hnul⟩ := toList_of_mem_allMarkers hr
  have hlength : Text.sqlLength r.id = 1 := by simp [Text.sqlLength, Text.sqlChars, hc, hnul]
  obtain ⟨k, hk, rfl⟩ := List.mem_map.mp hr
  have hk : k < 512 := List.mem_range.mp hk
  have howner : safeFrom 1 1 := by decide
  have htime : safeFrom 0 (512 - k) := by
    unfold safeFrom between maxJsSafeInteger
    omega
  exact ⟨fun _ => howner, by rw [hlength]; decide, htime⟩

theorem owner_of_mem_allMarkers {r : RetiredVaultRow} (hr : r ∈ allMarkers) :
    r.ownerUserId = 1 := by
  obtain ⟨k, -, rfl⟩ := List.mem_map.mp hr
  rfl

theorem ne_of_mem_allMarkers {r : RetiredVaultRow} (hr : r ∈ allMarkers) {id : String}
    (hid : id.toList.length ≠ 1) : r.id ≠ id := by
  obtain ⟨c, hc, -⟩ := toList_of_mem_allMarkers hr
  rintro rfl
  exact hid (congrArg List.length hc)

/-- What the client sends to have its vault migrated. -/
def migrateMessage : Value :=
  .object [("vault_uid", .string "vault"), ("keyhash", .string "k"), ("salt", .string "s"),
    ("encryption_version", .number (.int 3))]

def smallConfig : Config := ⟨"h", 100, 10, 10, fun _ => true⟩

/-- What the server draws for the replacement. -/
def someFresh : Fresh := ⟨"moved", 500, Vector.replicate 32 0, Vector.replicate 16 0⟩

def migrateNotes : Request :=
  .migrateVault 1 someTokenHash "vault"
    { movedVault with region := "Blackglass Server", created := 500 }

/-- A handler takes the lock and finds its source. -/
theorem run_to_found {phc : PhcParser} {config : Config} {store : Store} {used drawn : List String}
    {userId : Int} {tokenHash : String} {v : Value} {fresh : Fresh} {request : Request}
    (hfresh : fresh.id ∉ drawn)
    (hfound : migrateVault config store.db userId tokenHash fresh v = .ok request) :
    Run (Step phc config) ⟨store, none, [], used, drawn⟩
      [.lock (.migrate userId tokenHash v), .look fresh]
      ⟨store, some (.found request), [], used, fresh.id :: drawn⟩ :=
  .cons (.lockMigrate rfl) (.cons (.look rfl hfresh hfound) (.nil _))

/-- The handler of a migration is dropped, its vault is renamed, and then the transaction is run:
the replacement has the old name. -/
theorem migration_is_atomic_of_dropped :
    let store : Store := ⟨unmigratedServer [], by constructor <;> decide⟩
    let rename := Request.renameVault 1 someTokenHash "vault" "Diary"
    let renamed := store.next rename ⟨500, 500⟩
    let migrated := renamed.next migrateNotes ⟨500, 501⟩
    ∃ source new, source.id = "vault" ∧ source.name = "Diary" ∧ new.name = "Notes" ∧
      Replaced renamed.db 1 501 ["vault"] source new migrated.db := by
  intro store rename renamed migrated
  have hverified : Database.verifyConnection onePhc store.db 500 = .ok () :=
    verifyConnection_unmigratedServer (by simp) (by decide)
  have hfound : migrateVault smallConfig store.db 1 someTokenHash someFresh migrateMessage =
      .ok migrateNotes := by decide +kernel
  have hrun : Run (Step onePhc smallConfig) ⟨store, none, [], ["vault"], ["vault"]⟩
      ([.lock (.migrate 1 someTokenHash migrateMessage), .look someFresh] ++
        [.detach, .lock (.request rename), .transact rename ⟨500, 500⟩])
      ⟨renamed, some .finished, [migrateNotes], ["vault"], ["moved", "vault"]⟩ :=
    (run_to_found (by decide +kernel) hfound).append (.cons (.detach rfl rfl) (.cons
      (.lockRequest rfl rfl) (.cons (.transact rfl rfl (store.step_next _ _)) (.nil _))))
  have hlaws := migration_is_atomic hverified (by decide +kernel) (by decide +kernel)
    (fun _ hid => hid) hrun
  have hstep : Step onePhc smallConfig
      ⟨renamed, some .finished, [migrateNotes], ["vault"], ["moved", "vault"]⟩
      (.transact migrateNotes ⟨500, 501⟩) _ :=
    .transactDetached (show _ = [] ++ migrateNotes :: [] from rfl) (renamed.step_next _ _)
  have hok : migrateNotes.execute renamed.db ⟨500, 501⟩ = .ok (.flag true, migrated.db) := by
    decide +kernel
  obtain ⟨source, new, hid, hname, hreplaced⟩ := hlaws.succeeded hstep hok
  have hnames : ∀ v ∈ renamed.db.vaults, v.id = "vault" → v.name = "Diary" := by decide +kernel
  exact ⟨source, new, hid, hnames source hreplaced.source_mem hid, hname, hreplaced⟩

theorem constraints_allMarkers : Constraints (unmigratedServer allMarkers) :=
  constraints_unmigratedServer nodup_allMarkers fun _ => owner_of_mem_allMarkers

/-- An owner who has as many markers as the server keeps loses the oldest one when a vault is
migrated. -/
theorem migration_forgets_a_marker :
    let store : Store := ⟨unmigratedServer allMarkers, constraints_allMarkers⟩
    let used := "vault" :: allMarkers.map (·.id)
    let s : State := ⟨store, some (.found migrateNotes), [], used, "moved" :: used⟩
    let oldest : RetiredVaultRow := ⟨String.singleton (Char.ofNat 767), 1, 1⟩
    Database.verifyConnection onePhc store.db 500 = .ok () ∧
      Run (Step onePhc smallConfig) ⟨store, none, [], used, used⟩
        [.lock (.migrate 1 someTokenHash migrateMessage), .look someFresh] s ∧
      oldest ∈ store.db.retiredVaults ∧
      oldest.id ≠ "vault" ∧
      ((migrateNotes.execute store.db ⟨500, 501⟩).toOption.any fun (answer, db') =>
        answer = .flag true && oldest ∉ db'.retiredVaults) = true := by
  intro store used s oldest
  have hfound : migrateVault smallConfig store.db 1 someTokenHash someFresh migrateMessage =
      .ok migrateNotes := by decide +kernel
  have hverified : Database.verifyConnection onePhc store.db 500 = .ok () := by
    refine verifyConnection_unmigratedServer (fun r hr => ?_) (by decide +kernel)
    exact ⟨valid_of_mem_allMarkers hr, owner_of_mem_allMarkers hr,
      ne_of_mem_allMarkers hr (by decide)⟩
  have hfresh : someFresh.id ∉ used := by
    rw [List.mem_cons, List.mem_map, not_or]
    refine ⟨by decide, ?_⟩
    rintro ⟨r, hr, hid⟩
    exact ne_of_mem_allMarkers hr (by decide) hid
  have holdest : oldest ∈ (unmigratedServer allMarkers).retiredVaults := by
    rw [retiredVaults_unmigratedServer, allMarkers, List.mem_map]
    exact ⟨511, List.mem_range.mpr (by omega), rfl⟩
  exact ⟨hverified, run_to_found hfresh hfound, holdest, by decide, by decide +kernel⟩

end Migration

end Blackglass
