import Blackglass.DataPlane.Revocation

/-!
# What a connection reads does not depend on other vaults

Two servers whose databases agree on a vault and on the session that reads it answer the
messages that read the vault alike, frame by frame: the two tasks go in lockstep, because every
query in between answers the same on both (`Agree`).  All those answers come to an end, because
a replay, a pull and the pages of `deleted` each move forward.
-/

namespace Blackglass

open Json Outcome

namespace DataPlane

open Task

/-- The vault has a revision of that `uid`. -/
def Held (vault : String) (uid : Int) (rows : List RevisionRow) : Prop :=
  ∃ r ∈ rows, r.uid = uid ∧ r.vaultId = vault

/-- The same time, and databases that agree on the vault and the session of a connection.
`known` is what else is known of the revisions, which no answer changes. -/
structure Alike (b : Binding) (known : List RevisionRow → Prop) (w w' : World) : Prop where
  now : w.now = w'.now
  agree : Agree b.tokenHash b.vault w.store.db w'.store.db
  known : known w.store.db.revisions

/-- Nothing else. -/
def anything : List RevisionRow → Prop := fun _ => True

/-- What has to be alike for the code of a label to answer alike. -/
def Label.Same : Label → World → World → Prop
  | .hello, _, _ | .loop _, _, _ => True
  | .replay peer .., w, w' | .deletedPages peer .., w, w' => Alike peer.binding anything w w'
  | .pieces peer uid .., w, w' => Alike peer.binding (Held peer.session.vault uid) w w'
  -- where commits are acknowledged, which are no reads
  | .acknowledge .., _, _ => False

/-- The two codes go in lockstep on worlds that are alike. -/
structure Uniform (b : Binding) (known : List RevisionRow → Prop) (c c' : Program) : Prop where
  lockstep : ∀ {w w' : World}, Alike b known w w' → Code.Lockstep Label.Same w w' c c'

/-! ## Steps that all handlers are made of -/

section Uniform

variable {b : Binding} {known : List RevisionRow → Prop} {peer : Peer} {reason : String}
  {c c' : Program}

theorem Alike.valid_eq {w w' : World} (h : Alike b known w w') : w.valid b = w'.valid b := by
  unfold World.valid
  rw [h.now]
  exact h.agree.validSessionForVault_eq _

theorem Alike.renewed_isSome {w w' : World} (h : Alike b known w w') (ttlSecs : Int) :
    (w.store.db.renewSessionForVault b.tokenHash b.vault ttlSecs w.now).1.isSome =
      (w'.store.db.renewSessionForVault b.tokenHash b.vault ttlSecs w'.now).1.isSome := by
  rw [h.now]
  exact (h.agree.renewSessionForVault w'.store.constraints ttlSecs _).1

theorem Alike.renewSessionForVault {w w' : World} (h : Alike b known w w') (ttlSecs : Int) :
    Alike b known (w.renewSessionForVault b.tokenHash b.vault ttlSecs)
      (w'.renewSessionForVault b.tokenHash b.vault ttlSecs) where
  now := h.now
  agree := by
    show Agree _ _ (w.store.db.renewSessionForVault _ _ _ w.now).2 _
    rw [h.now]
    exact (h.agree.renewSessionForVault w'.store.constraints ttlSecs _).2
  known := by
    have hsame := sameVaults_renewSessionForVault w.store.db b.tokenHash b.vault ttlSecs w.now
    show known (w.store.db.renewSessionForVault _ _ _ _).2.revisions
    rw [hsame.revisions]
    exact h.known

namespace Uniform

theorem stop : Uniform b known .stop .stop := ⟨fun _ => trivial⟩

theorem goto {label : Label} (h : ∀ {w w' : World}, Alike b known w w' → label.Same w w') :
    Uniform b known (.goto label) (.goto label) :=
  ⟨fun halike => ⟨rfl, h halike⟩⟩

theorem loop : Uniform b known (.goto (.loop peer)) (.goto (.loop peer)) := goto fun _ => trivial

theorem input {k k' : Input → Program} (h : ∀ i, Uniform b known (k i) (k' i)) :
    Uniform b known (.input k) (.input k') :=
  ⟨fun halike i => (h i).lockstep halike⟩

theorem send {frame : Frame} (h : Uniform b known c c') :
    Uniform b known (.send frame c) (.send frame c') :=
  ⟨fun halike => ⟨rfl, h.lockstep halike⟩⟩

theorem transact {write write' : World → World} {k k' : World → Program}
    (hwrite : ∀ {w w' : World}, Alike b known w w' → Alike b known (write w) (write' w'))
    (h : ∀ {w w' : World}, Alike b known w w' → Uniform b known (k w) (k' w')) :
    Uniform b known (.transact write k) (.transact write' k') :=
  ⟨fun halike => (h halike).lockstep (hwrite halike)⟩

/-- What was read is known of the two worlds from then on. -/
theorem read {k k' : World → Program}
    (h : ∀ {w w' : World}, Alike b known w w' → Code.Lockstep Label.Same w w' (k w) (k' w')) :
    Uniform b known (.read k) (.read k') :=
  ⟨fun halike => h halike⟩

theorem close (code : Nat) (reason : String) :
    Uniform b known (close code reason) (close code reason) :=
  send stop

theorem reply (peer : Peer) (frame : Frame) :
    Uniform b known (reply peer frame) (reply peer frame) :=
  send loop

theorem atTime {k k' : Input → Program} (h : ∀ i, Uniform b known (k i) (k' i)) :
    Uniform b known (atTime k) (atTime k') :=
  input fun i => transact (fun halike => ⟨rfl, halike.agree, halike.known⟩) fun _ => h i

theorem unlessShuttingDown (h : Uniform b known c c') :
    Uniform b known (unlessShuttingDown peer c) (unlessShuttingDown peer c') := by
  refine input fun i => ?_
  split
  · exact loop
  · exact h

theorem check (h : Uniform peer.binding known c c') :
    Uniform peer.binding known (check peer reason c) (check peer reason c') := by
  refine atTime fun i => read fun {w w'} halike => ?_
  have hvalid : w.store.db.validSessionForVault peer.session.tokenHash peer.session.vault w.now =
      w'.store.db.validSessionForVault peer.session.tokenHash peer.session.vault w'.now :=
    halike.valid_eq
  rw [hvalid]
  split
  · exact h.lockstep halike
  · exact (close ..).lockstep halike

theorem renewActiveSession {server : Server} (h : Uniform peer.binding known c c') :
    Uniform peer.binding known (renewActiveSession server peer reason c)
      (renewActiveSession server peer reason c') := by
  refine atTime fun i => ?_
  split
  · refine transact (fun halike => halike.renewSessionForVault server.sessionTtlSecs)
      fun {w w'} halike => ?_
    have hrenewed : (w.store.db.renewSessionForVault peer.session.tokenHash peer.session.vault
        server.sessionTtlSecs w.now).1.isSome = (w'.store.db.renewSessionForVault
        peer.session.tokenHash peer.session.vault server.sessionTtlSecs w'.now).1.isSome :=
      halike.renewed_isSome server.sessionTtlSecs
    rw [hrenewed]
    split
    · exact h
    · exact close ..
  · exact close ..

end Uniform

end Uniform

/-! ## The reads -/

section Reads

variable (server : Server) (peer : Peer)

theorem uniform_sendReady (readyVersion : Int) :
    Uniform peer.binding anything (sendReady peer readyVersion) (sendReady peer readyVersion) :=
  .check (.reply ..)

theorem uniform_sendPage (page : List Revision) {c : Program}
    (hc : Uniform peer.binding anything c c) :
    Uniform peer.binding anything (sendPage peer page c) (sendPage peer page c) := by
  induction page with
  | nil => exact hc
  | cons r page ih => exact .unlessShuttingDown (.check (.unlessShuttingDown (.send ih)))

theorem replayPage_eq {w w' : World} (h : Alike peer.binding anything w w') (initial : Bool)
    (cursor readyVersion : Int) :
    replayPage w.store.db peer.session.vault initial cursor readyVersion =
      replayPage w'.store.db peer.session.vault initial cursor readyVersion := by
  unfold replayPage
  split
  · exact h.agree.initialSnapshotPage_eq w.store.constraints w'.store.constraints ..
  · exact h.agree.listChangesPage_eq w.store.constraints w'.store.constraints ..

theorem uniform_replay (initial : Bool) (cursor readyVersion : Int) :
    Uniform peer.binding anything (replay peer initial cursor readyVersion)
      (replay peer initial cursor readyVersion) := by
  refine .unlessShuttingDown (.check (.read fun {w w'} halike => ?_))
  simp only [replayPage_eq peer halike]
  split
  · exact (uniform_sendReady peer readyVersion).lockstep halike
  · refine (uniform_sendPage peer _ ?_).lockstep halike
    split
    · exact uniform_sendReady ..
    · exact .goto id

/-- A piece is found by its `uid` alone, which is one of the vault's. -/
theorem uniform_pullPieces (uid offset size : Int) :
    Uniform peer.binding (Held peer.session.vault uid) (pullPieces server peer uid offset size)
      (pullPieces server peer uid offset size) := by
  unfold pullPieces
  split
  · refine .unlessShuttingDown (.check (.unlessShuttingDown (.read fun {w w'} halike => ?_)))
    obtain ⟨r, hr, rfl, hid⟩ := halike.known
    have hfind : w.store.db.revision? r.uid = some r :=
      Rows.find_key_of_mem w.store.constraints.revisionUid hr
    simp only [halike.agree.contentChunk_eq w'.store.constraints hid hfind]
    split
    · trivial
    · refine (Uniform.check (.send (.renewActiveSession (.goto id)))).lockstep halike
  · exact .loop

theorem uniform_pullFound (uid : Int) (info : PullInfo) :
    Uniform peer.binding (Held peer.session.vault uid) (pullFound peer uid info)
      (pullFound peer uid info) := by
  refine .check ?_
  split
  · exact .reply ..
  · exact .send (.goto id)

theorem Held.of_agree {tokenHash vault : String} {db db' : Database} {uid : Int}
    (h : Agree tokenHash vault db db') (hheld : Held vault uid db.revisions) :
    Held vault uid db'.revisions := by
  obtain ⟨r, hr, huid, hid⟩ := hheld
  exact ⟨r, (h.revisions r hid).mp hr, huid, hid⟩

theorem pullAnswer_of_not_held {db : Database} {uid : Int}
    (h : ¬Held peer.session.vault uid db.revisions) :
    pullAnswer peer uid (db.pullInfo uid) = reply peer (.err "Revision not found") := by
  cases hinfo : db.pullInfo uid with
  | none => rfl
  | some info =>
    obtain ⟨r, hr, rfl⟩ := Option.map_eq_some_iff.mp hinfo
    refine if_neg fun hvault => h ⟨r, List.mem_of_find?_eq_some hr, ?_, hvault.symm⟩
    simpa using List.find?_some hr

theorem uniform_pull (v : Value) :
    Uniform peer.binding anything (pull peer v) (pull peer v) := by
  unfold pull
  split
  · exact .reply ..
  · rename_i uid _
    refine .read fun {w w'} halike => ?_
    by_cases hheld : Held peer.session.vault uid w.store.db.revisions
    · obtain ⟨r, hr, rfl, hid⟩ := hheld
      have hfind : w.store.db.revision? r.uid = some r :=
        Rows.find_key_of_mem w.store.constraints.revisionUid hr
      obtain ⟨info, hinfo, hvault⟩ : ∃ info, w.store.db.pullInfo r.uid = some info ∧
          info.vaultId = peer.session.vault :=
        ⟨_, congrArg (Option.map _) hfind, hid⟩
      rw [hinfo, halike.agree.pullInfo_eq_some w'.store.constraints hvault hinfo]
      simp only [pullAnswer, hvault, if_true]
      exact (uniform_pullFound peer r.uid info).lockstep
        ⟨halike.now, halike.agree, r, hr, rfl, hid⟩
    · have hheld' := fun hheld' => hheld (Held.of_agree halike.agree.symm hheld')
      rw [pullAnswer_of_not_held peer hheld, pullAnswer_of_not_held peer hheld']
      exact (Uniform.reply ..).lockstep halike

theorem uniform_history (v : Value) :
    Uniform peer.binding anything (history peer v) (history peer v) := by
  refine .unlessShuttingDown ?_
  split
  · exact .reply ..
  · rename_i path _
    refine .read fun {w w'} halike => ?_
    have hpage : ∀ last, w.store.db.historyPage peer.session.vault path last 101 =
        w'.store.db.historyPage peer.session.vault path last 101 := fun last =>
      halike.agree.historyPage_eq w.store.constraints w'.store.constraints path last 101
    simp only [hpage]
    refine (Uniform.check ?_).lockstep halike
    split
    · exact .reply ..
    · exact .reply ..

theorem uniform_deletedPages (suppress : Bool) (after : Int) (response : String) (first : Bool) :
    Uniform peer.binding anything (deletedPages peer suppress after response first)
      (deletedPages peer suppress after response first) := by
  refine .read fun {w w'} halike => ?_
  have hpage : w.store.db.listDeletedPage peer.session.vault suppress after deletedPageSize =
      w'.store.db.listDeletedPage peer.session.vault suppress after deletedPageSize :=
    halike.agree.listDeletedPage_eq w.store.constraints w'.store.constraints ..
  simp only [hpage]
  split
  · exact (Uniform.reply ..).lockstep halike
  · split
    · exact (Uniform.check (.reply ..)).lockstep halike
    · exact ⟨rfl, halike⟩

theorem uniform_deleted (v : Value) :
    Uniform peer.binding anything (deleted peer v) (deleted peer v) :=
  .unlessShuttingDown (.goto id)

/-! ## Authentication -/

theorem row_of_authContextHash {db : Database} (hc : Constraints db) {hash : String} {now : Int}
    {context : AuthContext} (h : db.authContextHash hash now = some context) :
    context.tokenHash = hash ∧
      ∃ s ∈ db.sessions, s.tokenHash = hash ∧ s.userId = context.userId := by
  unfold Database.authContextHash at h
  split at h
  · obtain ⟨⟨s, u⟩, hrow, rfl⟩ := Option.map_eq_some_iff.mp h
    obtain ⟨hs, htoken, -, -, hid, -⟩ := (authenticated_eq_some_iff hc).mp hrow
    exact ⟨htoken, s, hs, htoken, hid.symm⟩
  · cases h

theorem id_of_findAuthorizedVault {db : Database} {userId : Int} {id : String} {vault : VaultRow}
    {access : VaultAccess} (h : db.findAuthorizedVault userId id = some (vault, access)) :
    vault.id = id := by
  simp only [Database.findAuthorizedVault, Option.bind_eq_bind, Option.bind_eq_some_iff,
    Option.pure_def, Option.some.injEq, Prod.mk.injEq] at h
  obtain ⟨_, -, _, hv, rfl, -⟩ := h
  exact (mem_of_vault? hv).2

theorem uniform_welcome (initial : Bool) (version : Int) :
    Uniform peer.binding anything (welcome server peer initial version)
      (welcome server peer initial version) := by
  refine .read fun {w w'} halike => ?_
  have hready : w.store.db.currentVersion peer.session.vault =
      w'.store.db.currentVersion peer.session.vault :=
    halike.agree.currentVersion_eq w'.store.constraints
  simp only [hready]
  split
  · exact (Uniform.send (.close ..)).lockstep halike
  · exact ⟨rfl, rfl, halike⟩

theorem uniform_authenticate (v : Value) (context : AuthContext) (vault : VaultRow) :
    Uniform ⟨context.tokenHash, vault.id⟩ anything (authenticate server v context vault)
      (authenticate server v context vault) := by
  refine .atTime fun _ => .transact
    (fun halike => halike.renewSessionForVault server.sessionTtlSecs) fun {w w'} halike => ?_
  have hrenewed := halike.renewed_isSome server.sessionTtlSecs
  by_cases h : (w.store.db.renewSessionForVault context.tokenHash vault.id server.sessionTtlSecs
      w.now).1.isSome = true
  · rw [dif_pos h, dif_pos (hrenewed.symm.trans h)]
    cases initVersion v with
    | none => exact .send (.close ..)
    | some version =>
      refine .input fun i => ?_
      split
      · exact uniform_welcome server (.authenticated vault.ownerUserId
          (.init context.tokenHash context.userId vault.id v)
          (shape_of_renewSessionForVault h).1 (shape_of_renewSessionForVault h).2) _ version
      · exact .send (.close ..)
  · rw [dif_neg h, dif_neg fun h' => h (hrenewed.trans h')]
    exact .send (.goto fun _ => trivial)

/-- An `init` message that names the vault. -/
theorem uniform_init (v : Value) :
    Uniform ⟨server.tokenHash (initToken v), initId v⟩ anything (init server v)
      (init server v) := by
  refine .atTime fun _ => .read fun {w w'} halike => ?_
  have hcontext : initContext server w v = initContext server w' v := by
    unfold initContext
    rw [halike.now, halike.agree.authContextHash_eq w.store.constraints w'.store.constraints]
  rw [← hcontext]
  cases hctx : initContext server w v with
  | none => exact ⟨rfl, rfl, trivial⟩
  | some context =>
    unfold initContext at hctx
    split at hctx
    · obtain ⟨htoken, s, hs, hstoken, huser⟩ := row_of_authContextHash w.store.constraints hctx
      simp only [← huser, halike.agree.findAuthorizedVault_eq w'.store.constraints hs hstoken]
      cases hfound : w'.store.db.findAuthorizedVault s.userId (initId v) with
      | none => exact ⟨rfl, rfl, trivial⟩
      | some found =>
        obtain ⟨vault, access⟩ := found
        have hid := id_of_findAuthorizedVault hfound
        simp only [initVault]
        split
        · exact ⟨rfl, rfl, trivial⟩
        · split
          · exact ⟨rfl, rfl, trivial⟩
          · rw [← htoken, ← hid] at halike
            exact (uniform_authenticate server v context vault).lockstep halike
    · cases hctx

/-! ## What is not of the vault -/

/-- The transaction of a restore of a `uid` that the vault does not have: it is authorised or
not, and that is all. -/
theorem execute_restore_of_not_held {db : Database} {userId : Int} {tokenHash vault : String}
    {uid : Int} {device : String} {globalLimit ownerLimit : Int} {t : Readings}
    (h : ¬Held vault uid db.revisions) :
    (Request.restore userId tokenHash vault uid device globalLimit ownerLimit).execute db t =
      (db.authorizeMutation (some tokenHash) userId vault t.authorizedAt).map
        fun _ => (.restored none, db) := by
  have hfind : (db.revisions.find? fun r => r.uid = uid && r.vaultId = vault) = none := by
    refine List.find?_eq_none.mpr fun r hr hsel => h ⟨r, hr, ?_⟩
    simpa using hsel
  simp only [Request.execute, Database.restoreInternal, hfind]
  cases db.authorizeMutation (some tokenHash) userId vault t.authorizedAt <;> rfl

theorem authorizeMutation_error {db : Database} {tokenHash vault : String} {userId now : Int}
    {e : DbError} (h : db.authorizeMutation (some tokenHash) userId vault now = .error e) :
    e = .bail "mutation authorization expired or was revoked" := by
  simp only [Database.authorizeMutation, Database.authorizeAccountMutation, bind_eq_error,
    orReject_eq_error, rejectIf_eq_error, reduceCtorEq, false_and, false_or] at h
  obtain ⟨_, -, -, rfl⟩ | ⟨_, -, -, rfl⟩ := h
  · rfl
  · rfl

theorem authorizeMutation_eq {tokenHash vault : String} {db db' : Database}
    (h : Agree tokenHash vault db db') (hc : Constraints db) (hc' : Constraints db')
    (userId now : Int) : db.authorizeMutation (some tokenHash) userId vault now =
      db'.authorizeMutation (some tokenHash) userId vault now := by
  cases hok : db.authorizeMutation (some tokenHash) userId vault now with
  | ok => exact (h.authorizeMutation hc hc' hok).symm
  | error e =>
    cases hok' : db'.authorizeMutation (some tokenHash) userId vault now with
    | ok => cases hok.symm.trans (h.symm.authorizeMutation hc' hc hok')
    | error e' => rw [authorizeMutation_error hok, authorizeMutation_error hok']

/-- A request that would leave the database as it is does so. -/
theorem execute_of_map {store : Store} {request : Request} {t : Readings} {answer : Answer}
    {check : Except DbError Unit}
    (h : request.execute store.db t = check.map fun _ => (answer, store.db)) :
    store.execute request t = check.map fun _ => (answer, store) := by
  unfold Store.execute
  split
  · rename_i hok
    rw [h] at hok
    cases check with
    | ok =>
      cases hok
      rfl
    | error e => cases hok
  · rename_i herror
    rw [h] at herror
    cases check with
    | ok => cases herror
    | error e =>
      cases herror
      rfl

section Restore

variable {w : World} {uid : Int} {userId : Int} {tokenHash vault device : String}
  {globalLimit ownerLimit : Int}

theorem World.execute_restore (h : ¬Held vault uid w.store.db.revisions) (later : Int) :
    w.store.execute (.restore userId tokenHash vault uid device globalLimit ownerLimit)
        ⟨w.now, later⟩ =
      (w.store.db.authorizeMutation (some tokenHash) userId vault w.now).map
        fun _ => (.restored none, w.store) :=
  execute_of_map (execute_restore_of_not_held h)

theorem World.commit_restore (h : ¬Held vault uid w.store.db.revisions) (later : Int) :
    w.commit (.restore userId tokenHash vault uid device globalLimit ownerLimit) later = w := by
  unfold World.commit
  rw [World.execute_restore h]
  cases w.store.db.authorizeMutation (some tokenHash) userId vault w.now <;> rfl

theorem World.answer_restore (h : ¬Held vault uid w.store.db.revisions) (later : Int) :
    w.answer (.restore userId tokenHash vault uid device globalLimit ownerLimit) later =
      (w.store.db.authorizeMutation (some tokenHash) userId vault w.now).map
        fun _ => .restored none := by
  unfold World.answer
  rw [World.execute_restore h]
  cases w.store.db.authorizeMutation (some tokenHash) userId vault w.now <;> rfl

end Restore

/-- Two restores of `uid`s that the vault does not have. -/
theorem uniform_restoreRevision {v v' : Value} {uid uid' : Int}
    (hv : (v.get "uid").bind Value.asI64 = some uid)
    (hv' : (v'.get "uid").bind Value.asI64 = some uid') :
    Uniform peer.binding
      (fun rows => ¬Held peer.session.vault uid rows ∧ ¬Held peer.session.vault uid' rows)
      (restoreRevision server peer v) (restoreRevision server peer v') := by
  refine .input fun i => ?_
  simp only [restore, hv, hv']
  refine .atTime fun j => .transact (fun {w w'} halike => ?_) fun {w w'} halike => ?_
  · have hheld' := fun h => halike.known.2 (Held.of_agree halike.agree.symm h)
    rw [World.commit_restore halike.known.1, World.commit_restore hheld']
    exact halike
  · have hheld' := fun h => halike.known.2 (Held.of_agree halike.agree.symm h)
    have hagree : Agree peer.session.tokenHash peer.session.vault w.store.db w'.store.db :=
      halike.agree
    rw [World.answer_restore halike.known.1, World.answer_restore hheld', ← halike.now,
      ← authorizeMutation_eq hagree w.store.constraints w'.store.constraints]
    cases hok : w.store.db.authorizeMutation (some peer.session.tokenHash) peer.session.userId
      peer.session.vault w.now with
    | ok => exact .reply ..
    | error e =>
      rw [authorizeMutation_error hok]
      exact .stop

theorem uniform_pull_of_not_held {v v' : Value} {uid uid' : Int}
    (hv : (v.get "uid").bind Value.asI64 = some uid)
    (hv' : (v'.get "uid").bind Value.asI64 = some uid') :
    Uniform peer.binding
      (fun rows => ¬Held peer.session.vault uid rows ∧ ¬Held peer.session.vault uid' rows)
      (pull peer v) (pull peer v') := by
  unfold pull
  rw [hv, hv']
  refine .read fun {w w'} halike => ?_
  have hheld' := fun h => halike.known.2 (Held.of_agree halike.agree.symm h)
  rw [pullAnswer_of_not_held peer halike.known.1, pullAnswer_of_not_held peer hheld']
  exact (Uniform.reply ..).lockstep halike

end Reads

/-! ## Answers come to an end -/

/-- The code of an answer: back in the loop, it has been given. -/
def answering (server : Server) : Label → Program
  | .hello | .loop _ => .stop
  | label => body server label

/-- The code stops on every database with these revisions. -/
structure Ends (server : Server) (rows : List RevisionRow) (c : Program) : Prop where
  halts : ∀ {w : World}, w.store.db.revisions = rows → Code.Halts (answering server) w c

section Ends

variable {server : Server} {rows : List RevisionRow} {peer : Peer} {reason : String} {c : Program}

namespace Ends

theorem stop : Ends server rows .stop := ⟨fun _ => .stop⟩

theorem goto {label : Label} (h : Ends server rows (answering server label)) :
    Ends server rows (.goto label) :=
  ⟨fun hrows => .goto (h.halts hrows)⟩

theorem input {k : Input → Program} (h : ∀ i, Ends server rows (k i)) :
    Ends server rows (.input k) :=
  ⟨fun hrows => .input fun i => (h i).halts hrows⟩

theorem send {frame : Frame} (h : Ends server rows c) : Ends server rows (.send frame c) :=
  ⟨fun hrows => .send (h.halts hrows)⟩

theorem transact {write : World → World} {k : World → Program}
    (hwrite : ∀ w, w.store.db.revisions = rows → (write w).store.db.revisions = rows)
    (h : ∀ w, w.store.db.revisions = rows → Ends server rows (k w)) :
    Ends server rows (.transact write k) :=
  ⟨fun {w} hrows => .transact ((h w hrows).halts (hwrite w hrows))⟩

theorem read {k : World → Program}
    (h : ∀ w, w.store.db.revisions = rows → Ends server rows (k w)) :
    Ends server rows (.read k) :=
  transact (fun _ => id) h

theorem close (code : Nat) (reason : String) : Ends server rows (close code reason) := send stop

theorem loop (peer : Peer) : Ends server rows (.goto (.loop peer)) := goto stop

theorem reply (peer : Peer) (frame : Frame) : Ends server rows (reply peer frame) :=
  send (loop peer)

theorem atTime {k : Input → Program} (h : ∀ i, Ends server rows (k i)) :
    Ends server rows (atTime k) :=
  input fun i => transact (fun _ => id) fun _ _ => h i

/-- A renewal changes no revision. -/
theorem renew {k : World → Program} (hash vault : String) (ttlSecs : Int)
    (h : ∀ w, Ends server rows (k w)) :
    Ends server rows (.transact (·.renewSessionForVault hash vault ttlSecs) k) :=
  transact (fun _ hrows => (sameVaults_renewSessionForVault ..).revisions.trans hrows)
    fun w _ => h w

theorem unlessShuttingDown (h : Ends server rows c) :
    Ends server rows (unlessShuttingDown peer c) := by
  refine input fun i => ?_
  split
  · exact loop peer
  · exact h

theorem check (h : Ends server rows c) : Ends server rows (check peer reason c) := by
  refine atTime fun i => read fun w _ => ?_
  split
  · exact h
  · exact close ..

theorem renewActiveSession (h : Ends server rows c) :
    Ends server rows (renewActiveSession server peer reason c) := by
  refine atTime fun i => ?_
  split
  · refine renew _ _ _ fun w => ?_
    split
    · exact h
    · exact close ..
  · exact close ..

end Ends

/-- A page that begins above a cursor leaves fewer revisions above its own end. -/
theorem countP_lt_of_page {cursor : Int} {r : RevisionRow} (hr : r ∈ rows) (hlt : cursor < r.uid) :
    rows.countP (fun x => r.uid < x.uid) < rows.countP (fun x => cursor < x.uid) := by
  have hsplit : rows.countP (fun x => cursor < x.uid) =
      rows.countP (fun x => r.uid < x.uid) +
        rows.countP (fun x => cursor < x.uid && decide (x.uid ≤ r.uid)) := by
    refine Rows.countP_eq_add fun x _ => ?_
    by_cases habove : r.uid < x.uid
    · simp [habove, hlt.trans habove]
    · simp [habove, not_lt.mp habove]
  have hpos : 0 < rows.countP (fun x => cursor < x.uid && decide (x.uid ≤ r.uid)) :=
    List.countP_pos_iff.mpr ⟨r, hr, by simp [hlt]⟩
  omega

theorem mem_pageByUid {selected : List RevisionRow} {limit : Int} {x : Revision}
    (h : x ∈ Database.pageByUid selected limit) : ∃ r ∈ selected, r.toRevision = x := by
  rw [pageByUid_eq] at h
  exact mem_sortedRevisions.mp (List.mem_of_mem_take h)

theorem mem_replayPage {db : Database} {vault : String} {initial : Bool}
    {cursor readyVersion : Int} {x : Revision}
    (h : x ∈ replayPage db vault initial cursor readyVersion) :
    ∃ r ∈ db.revisions, r.uid = x.uid ∧ cursor < x.uid := by
  unfold replayPage at h
  split at h
  · obtain ⟨r, hr, rfl⟩ := mem_pageByUid h
    obtain ⟨hr, hsel⟩ := List.mem_filter.mp hr
    simp only [Bool.and_eq_true, decide_eq_true_eq] at hsel
    exact ⟨r, hr, rfl, hsel.2⟩
  · obtain ⟨r, hr, rfl⟩ := mem_pageByUid h
    obtain ⟨hr, hsel⟩ := List.mem_filter.mp hr
    simp only [Bool.and_eq_true, decide_eq_true_eq] at hsel
    exact ⟨r, hr, rfl, hsel.1.2⟩

theorem mem_listDeletedPage {db : Database} {vault : String} {suppress : Bool} {after limit : Int}
    {x : Revision} (h : x ∈ db.listDeletedPage vault suppress after limit) :
    ∃ r ∈ db.revisions, r.uid = x.uid ∧ after < x.uid := by
  obtain ⟨r, hr, rfl⟩ := mem_pageByUid h
  obtain ⟨hr, hsel⟩ := List.mem_filter.mp hr
  simp only [Bool.and_eq_true, decide_eq_true_eq] at hsel
  exact ⟨r, hr, rfl, lt_of_le_of_lt (le_max_left _ _) hsel.2⟩

theorem ends_sendPage (page : List Revision) (h : Ends server rows c) :
    Ends server rows (sendPage peer page c) := by
  induction page with
  | nil => exact h
  | cons r page ih => exact .unlessShuttingDown (.check (.unlessShuttingDown (.send ih)))

/-- The cursor of a replay moves forward from page to page. -/
theorem ends_replay (initial : Bool) (cursor readyVersion : Int) :
    Ends server rows (replay peer initial cursor readyVersion) := by
  induction hleft : rows.countP (fun r => cursor < r.uid) using Nat.strong_induction_on
    generalizing cursor with
  | _ left ih =>
    refine .unlessShuttingDown (.check (.read fun w hrows => ?_))
    simp only
    split
    · exact .check (.reply ..)
    · rename_i last hlast
      refine ends_sendPage _ ?_
      split
      · exact .check (.reply ..)
      · obtain ⟨r, hr, huid, hlt⟩ := mem_replayPage (List.mem_of_getLast? hlast)
        rw [hrows] at hr
        rw [← huid] at hlt ⊢
        exact .goto (ih _ (hleft ▸ countP_lt_of_page hr hlt) _ rfl)

/-- So does a pull. -/
theorem ends_pullPieces (uid offset size : Int) :
    Ends server rows (pullPieces server peer uid offset size) := by
  induction hleft : (size - offset).toNat using Nat.strong_induction_on generalizing offset with
  | _ left ih =>
    unfold pullPieces
    split
    · refine .unlessShuttingDown (.check (.unlessShuttingDown (.read fun w _ => ?_)))
      simp only
      split
      · exact .stop
      · refine .check (.send (.renewActiveSession (.goto (ih _ ?_ _ rfl))))
        have hpiece : (0 : Int) < revisionPieceSize := by decide
        omega
    · exact .loop peer

/-- And so do the pages of `deleted`. -/
theorem ends_deletedPages (suppress : Bool) (after : Int) (response : String) (first : Bool) :
    Ends server rows (deletedPages peer suppress after response first) := by
  induction hleft : rows.countP (fun r => after < r.uid) using Nat.strong_induction_on
    generalizing after response first with
  | _ left ih =>
    refine .read fun w hrows => ?_
    simp only
    split
    · exact .reply ..
    · split
      · exact .check (.reply ..)
      · rename_i hfull
        cases hlast : (w.store.db.listDeletedPage peer.session.vault suppress after
            deletedPageSize).getLast? with
        | none =>
          rw [List.getLast?_eq_none_iff.mp hlast] at hfull
          exact absurd (by decide) hfull
        | some last =>
          obtain ⟨r, hr, huid, hlt⟩ := mem_listDeletedPage (List.mem_of_getLast? hlast)
          rw [hrows] at hr
          rw [Option.map_some, Option.getD_some, ← huid]
          rw [← huid] at hlt
          exact .goto (ih _ (hleft ▸ countP_lt_of_page hr hlt) _ _ _ rfl)

theorem ends_init (v : Value) : Ends server rows (init server v) := by
  have hhello : Ends server rows (.goto .hello) := .goto .stop
  have hwelcome : ∀ peer initial version,
      Ends server rows (welcome server peer initial version) := by
    intro peer initial version
    refine .read fun w _ => ?_
    simp only
    split
    · exact .send (.close ..)
    · exact .send (.goto (ends_replay ..))
  have hauthenticate : ∀ context vault,
      Ends server rows (authenticate server v context vault) := by
    intro context vault
    refine .atTime fun _ => .renew _ _ _ fun w => ?_
    split
    · split
      · exact .send (.close ..)
      · refine .input fun i => ?_
        split
        · exact hwelcome ..
        · exact .send (.close ..)
    · exact .send hhello
  refine .atTime fun _ => .read fun w _ => ?_
  split
  · exact .send hhello
  · unfold initVault
    split
    · exact .send (.close ..)
    · split
      · exact .send (.close ..)
      · split
        · exact .send hhello
        · exact hauthenticate ..

theorem ends_pull (v : Value) : Ends server rows (pull peer v) := by
  unfold pull
  split
  · exact .reply ..
  · refine .read fun w _ => ?_
    unfold pullAnswer
    split
    · exact .reply ..
    · split
      · refine .check ?_
        split
        · exact .reply ..
        · exact .send (.goto (ends_pullPieces ..))
      · exact .reply ..

theorem ends_history (v : Value) : Ends server rows (history peer v) := by
  refine .unlessShuttingDown ?_
  split
  · exact .reply ..
  · refine .read fun w _ => .check ?_
    split
    · exact .reply ..
    · exact .reply ..

theorem ends_deleted (v : Value) : Ends server rows (deleted peer v) :=
  .unlessShuttingDown (.goto (ends_deletedPages ..))

theorem ends_restoreRevision {v : Value} {uid : Int}
    (hv : (v.get "uid").bind Value.asI64 = some uid) (h : ¬Held peer.session.vault uid rows) :
    Ends server rows (restoreRevision server peer v) := by
  refine .input fun i => ?_
  simp only [restore, hv]
  refine .atTime fun j => .transact (fun w hrows => ?_) fun w hrows => ?_
  · rw [World.commit_restore (hrows ▸ h)]
    exact hrows
  · rw [World.answer_restore (hrows ▸ h)]
    cases hok : w.store.db.authorizeMutation (some peer.session.tokenHash) peer.session.userId
      peer.session.vault w.now with
    | ok => exact .reply ..
    | error e =>
      rw [authorizeMutation_error hok]
      exact .stop

end Ends

/-! ## The answers -/

/-- What a connection answers, on a database that nobody else changes meanwhile. -/
def respond (server : Server) (n : Nat) (inputs : Nat → Input) (w : World) (c : Program) :
    Option (List Frame) :=
  c.run (answering server) n inputs w

/-- The two answers are given, whatever comes from outside, and are the same. -/
structure Indistinguishable (server : Server) (w w' : World) (c c' : Program) : Prop where
  same : ∀ n inputs, respond server n inputs w c = respond server n inputs w' c'
  given : ∀ inputs, ∃ n, (respond server n inputs w c).isSome = true

section Answers

variable {server : Server} {peer : Peer} {b : Binding} {known : List RevisionRow → Prop}
  {w w' : World} {c c' : Program}

theorem lockstep_answering (server : Server) (label : Label) (w w' : World)
    (h : label.Same w w') :
    Code.Lockstep Label.Same w w' (answering server label) (answering server label) := by
  cases label with
  | hello => trivial
  | loop peer => trivial
  | replay peer initial cursor readyVersion => exact (uniform_replay peer ..).lockstep h
  | pieces peer uid offset size => exact (uniform_pullPieces server peer ..).lockstep h
  | deletedPages peer suppress after response first =>
    exact (uniform_deletedPages peer ..).lockstep h
  | acknowledge peer committed conditional => exact h.elim

theorem Uniform.indistinguishable (h : Uniform b known c c') (halike : Alike b known w w')
    (hends : Ends server w.store.db.revisions c) : Indistinguishable server w w' c c' where
  same := fun _ _ => Code.run_eq (lockstep_answering server) (h.lockstep halike)
  given := fun inputs => (hends.halts rfl).run inputs

/-- A message is handled after the session was renewed and checked again. -/
theorem Uniform.incoming {size : Nat} {v v' : Value}
    (h : Uniform peer.binding known (dispatch server peer v) (dispatch server peer v')) :
    Uniform peer.binding known (incoming server peer (.text size (some v)))
      (incoming server peer (.text size (some v'))) := by
  refine .renewActiveSession ?_
  simp only [handleMessage]
  split
  · exact .close ..
  · exact .check h

theorem Ends.incoming {rows : List RevisionRow} {size : Nat} {v : Value}
    (h : Ends server rows (dispatch server peer v)) :
    Ends server rows (incoming server peer (.text size (some v))) := by
  refine .renewActiveSession ?_
  simp only [handleMessage]
  split
  · exact .close ..
  · exact .check h

/-- A message that only reads the vault. -/
def Reads (v : Value) : Prop :=
  operation v = "pull" ∨ operation v = "history" ∨ operation v = "deleted"

theorem uniform_of_reads {v : Value} (h : Reads v) :
    Uniform peer.binding anything (dispatch server peer v) (dispatch server peer v) := by
  obtain hop | hop | hop := h
  · simpa [dispatch, hop] using uniform_pull peer v
  · simpa [dispatch, hop] using uniform_history peer v
  · simpa [dispatch, hop] using uniform_deleted peer v

theorem ends_of_reads {rows : List RevisionRow} {v : Value} (h : Reads v) :
    Ends server rows (dispatch server peer v) := by
  obtain hop | hop | hop := h
  · simpa [dispatch, hop] using ends_pull v
  · simpa [dispatch, hop] using ends_history v
  · simpa [dispatch, hop] using ends_deleted v

/-- A message about one revision, of the `uid` that it names. -/
def Names (v : Value) (uid : Int) : Prop :=
  (operation v = "pull" ∨ operation v = "restore") ∧
    (v.get "uid").bind Value.asI64 = some uid

theorem uniform_of_names {v v' : Value} {uid uid' : Int} (h : Names v uid) (h' : Names v' uid')
    (hsame : operation v = operation v') :
    Uniform peer.binding
      (fun rows => ¬Held peer.session.vault uid rows ∧ ¬Held peer.session.vault uid' rows)
      (dispatch server peer v) (dispatch server peer v') := by
  obtain ⟨hop | hop, hv⟩ := h
  · simpa [dispatch, ← hsame, hop] using uniform_pull_of_not_held peer hv h'.2
  · simpa [dispatch, ← hsame, hop] using uniform_restoreRevision server peer hv h'.2

theorem ends_of_names {rows : List RevisionRow} {v : Value} {uid : Int} (h : Names v uid)
    (hheld : ¬Held peer.session.vault uid rows) : Ends server rows (dispatch server peer v) := by
  obtain ⟨hop | hop, hv⟩ := h
  · simpa [dispatch, hop] using ends_pull v
  · simpa [dispatch, hop] using ends_restoreRevision hv hheld

end Answers

/-- On two databases that agree on a vault and on the rows that authorise its reader, with any
other rows in either, a data connection bound to the vault gives the same answers to `init`,
`pull`, `history` and `deleted`.  A `uid` that the vault does not have is pulled and restored
like any other it does not have, whether some other vault has it or none. -/
theorem reads_stay_in_vault (server : Server) (b : Binding) {store store' : Store}
    (hagree : Agree b.tokenHash b.vault store.db store'.db) (now : Int) :
    (∀ size v, server.tokenHash (initToken v) = b.tokenHash → initId v = b.vault →
      Indistinguishable server ⟨store, now⟩ ⟨store', now⟩
        (handleGreeting server (.text size (some v)))
        (handleGreeting server (.text size (some v)))) ∧
    (∀ peer : Peer, peer.binding = b → ∀ size v, Reads v →
      Indistinguishable server ⟨store, now⟩ ⟨store', now⟩
        (incoming server peer (.text size (some v)))
        (incoming server peer (.text size (some v)))) ∧
    (∀ peer : Peer, peer.binding = b → ∀ size v v' uid uid', Names v uid → Names v' uid' →
      operation v = operation v' →
      ¬Held b.vault uid store.db.revisions → ¬Held b.vault uid' store.db.revisions →
      Indistinguishable server ⟨store, now⟩ ⟨store', now⟩
        (incoming server peer (.text size (some v)))
        (incoming server peer (.text size (some v')))) := by
  refine ⟨fun size v htoken hid => ?_, fun peer hpeer size v hreads => ?_,
    fun peer hpeer size v v' uid uid' hv hv' hsame hheld hheld' => ?_⟩
  · have hb : b = ⟨server.tokenHash (initToken v), initId v⟩ := by rw [htoken, hid]
    subst hb
    have halike : Alike ⟨server.tokenHash (initToken v), initId v⟩ anything ⟨store, now⟩
        ⟨store', now⟩ := ⟨rfl, hagree, trivial⟩
    simp only [handleGreeting]
    split
    · exact (Uniform.close ..).indistinguishable halike (.close ..)
    · split
      · exact (Uniform.close ..).indistinguishable halike (.close ..)
      · exact (uniform_init server v).indistinguishable halike (ends_init v)
  · subst hpeer
    have halike : Alike peer.binding anything ⟨store, now⟩ ⟨store', now⟩ := ⟨rfl, hagree, trivial⟩
    exact (Uniform.incoming (uniform_of_reads hreads)).indistinguishable halike
      (.incoming (ends_of_reads hreads))
  · subst hpeer
    have halike : Alike peer.binding (fun rows =>
        ¬Held peer.session.vault uid rows ∧ ¬Held peer.session.vault uid' rows)
        ⟨store, now⟩ ⟨store', now⟩ := ⟨rfl, hagree, hheld, hheld'⟩
    exact (Uniform.incoming (uniform_of_names hv hv' hsame)).indistinguishable halike
      (.incoming (ends_of_names hv hheld))

/-! ## A push to another vault -/

/-- The collaborator's connection to the shared vault. -/
def guestPeer : Peer :=
  .authenticated 1 (.init collaboratorTokenHash 2 "vault" .null) (by decide +kernel)
    (by decide +kernel)

/-- The shared server after a push to the other vault, which gets the `uid` 1. -/
def pushedStore : Store :=
  sharedStore.next (.addFileRevision { notePush false 3 1 with vaultId := "other", userId := 2 }
    collaboratorTokenHash [1, 2, 3] 10 10) ⟨500, 500⟩

def naming (operation : String) (uid : Int) : Value :=
  .object [("op", .string operation), ("uid", .number (.int uid))]

/-- For the collaborator of the shared vault the push to the other one has not been made: the
`uid` it got is not found, as one that nobody has. -/
theorem reads_stay_in_vault_of_other_push :
    Held "other" 1 pushedStore.db.revisions ∧
      Indistinguishable sharingServer ⟨pushedStore, 500⟩ ⟨sharedStore, 500⟩
        (incoming sharingServer guestPeer (.text 1 (some (naming "deleted" 0))))
        (incoming sharingServer guestPeer (.text 1 (some (naming "deleted" 0)))) ∧
      Indistinguishable sharingServer ⟨pushedStore, 500⟩ ⟨sharedStore, 500⟩
        (incoming sharingServer guestPeer (.text 1 (some (naming "pull" 1))))
        (incoming sharingServer guestPeer (.text 1 (some (naming "pull" 7)))) ∧
      respond sharingServer 20 (fun _ => messageAt 500 []) ⟨pushedStore, 500⟩
        (incoming sharingServer guestPeer (.text 1 (some (naming "restore" 1)))) =
          some [.err "Revision not found"] := by
  have hagree : Agree collaboratorTokenHash "vault" pushedStore.db sharedStore.db :=
    .of_tenant pushedStore.constraints sharedStore.constraints (by decide +kernel)
      (by decide +kernel) (by decide +kernel)
  have hrows : pushedStore.db.revisions.map (fun r => (r.uid, r.vaultId)) = [(1, "other")] := by
    decide +kernel
  have hnot : ∀ uid, ¬Held "vault" uid pushedStore.db.revisions := by
    rintro uid ⟨r, hr, -, hid⟩
    have hmem := List.mem_map_of_mem (f := fun r : RevisionRow => (r.uid, r.vaultId)) hr
    rw [hrows, List.mem_singleton, Prod.mk.injEq, hid] at hmem
    exact absurd hmem.2 (by decide)
  have hheld : Held "other" 1 pushedStore.db.revisions := by
    obtain ⟨r, hr, heq⟩ := List.mem_map.mp (hrows ▸ List.mem_singleton_self (1, "other"))
    exact ⟨r, hr, congrArg Prod.fst heq, congrArg Prod.snd heq⟩
  obtain ⟨-, hreads, hnames⟩ :=
    reads_stay_in_vault sharingServer ⟨collaboratorTokenHash, "vault"⟩ hagree 500
  refine ⟨hheld, hreads guestPeer rfl 1 _ (.inr (.inr rfl)), ?_, by decide +kernel⟩
  exact hnames guestPeer rfl 1 _ _ 1 7 ⟨.inl rfl, rfl⟩ ⟨.inl rfl, rfl⟩ rfl (hnot 1) (hnot 7)

end DataPlane

end Blackglass
