import Blackglass.Stream.Order

/-!
# What a client is told

The order of the change stream in terms of the database alone, and what becomes of a
connection that is too slow.  A receiver that has lost events learns it at its next
receive, and the connection then closes; until then it goes on with what it already had in
its hands: the rest of its replay, which stops at the version it subscribed at, or one
event that it took off the queue before.
-/

namespace Blackglass.Stream

open Broadcast Transition

variable {C : Type*}

/-- The notices a connection has sent, against the revisions of its vault. -/
structure ChangeStream (s : State C) (k : Connection) : Prop where
  increasing : (k.notices.map (·.uid)).Pairwise (· < ·)
  exact : ∀ u, u ∈ k.notices.map (·.uid) ↔ ∃ r ∈ s.db.revisions, r.vaultId = k.vault ∧ r.uid = u ∧
    k.version < u ∧ ∃ last ∈ (k.notices.map (·.uid)).getLast?, u ≤ last
  faithful : ∀ n ∈ k.notices, ∃ r ∈ s.db.revisions, r.vaultId = k.vault ∧
    n = r.toRevision.toNotice
  acknowledged : ∀ before uid after, k.sent = before ++ .ack uid :: after →
    ∀ r ∈ s.db.revisions, r.vaultId = k.vault → k.version < r.uid → r.uid ≤ uid →
      r.toRevision.toNotice ∈ noticesIn before

/-- The last of an increasing list is its largest element. -/
theorem le_of_mem_getLast? {xs : List Int} (h : xs.Pairwise (· < ·)) {u last : Int}
    (hu : u ∈ xs) (hlast : last ∈ xs.getLast?) : u ≤ last := by
  obtain ⟨ys, rfl⟩ := List.getLast?_eq_some_iff.mp hlast
  rcases List.mem_append.mp hu with hu | hu
  · exact ((List.pairwise_append.mp h).2.2 u hu last (List.mem_singleton_self _)).le
  · exact (List.mem_singleton.mp hu).le

section

variable {s s' : State C} {a : Action C} {c : C}

theorem mem_logAfter {k : Connection} {x : Revision} :
    x ∈ s.logAfter k ↔ x ∈ s.log ∧ x.vaultId = k.vault ∧ k.version < x.uid := by
  simp [State.logAfter]

theorem InOrder.changeStream (h : InOrder s) (hinitial : (s.conns c).initial = false) :
    ChangeStream s (s.conns c) := by
  obtain ⟨⟨done, rest, hsplit, hnotices⟩, hacked, -⟩ := h.ordered c hinitial
  have hsorted := h.sound.sorted_logAfter (s.conns c)
  rw [hsplit] at hsorted
  obtain ⟨hdone, -, hbefore⟩ := List.pairwise_append.mp hsorted
  have huids : (s.conns c).notices.map (·.uid) = done.map (·.uid) := by
    rw [hnotices, List.map_map]
    rfl
  have hincreasing : ((s.conns c).notices.map (·.uid)).Pairwise (· < ·) := by
    rw [huids]
    exact List.pairwise_map.mpr hdone
  have hmem : ∀ x ∈ done, ∃ r ∈ s.db.revisions, r.toRevision = x ∧
      x.vaultId = (s.conns c).vault ∧ (s.conns c).version < x.uid := by
    intro x hx
    obtain ⟨hlog, hsel⟩ := mem_logAfter.mp (hsplit ▸ List.mem_append_left rest hx)
    obtain ⟨r, hr, rfl⟩ := h.complete x hlog
    exact ⟨r, hr, rfl, hsel⟩
  refine ⟨hincreasing, fun u => ⟨fun hu => ?_, ?_⟩, fun n hn => ?_, ?_⟩
  · have hlast := List.getLast?_eq_some_getLast (List.ne_nil_of_mem hu)
    have hle := le_of_mem_getLast? hincreasing hu hlast
    rw [huids] at hu
    obtain ⟨x, hx, rfl⟩ := List.mem_map.mp hu
    obtain ⟨r, hr, rfl, hvault, hversion⟩ := hmem x hx
    exact ⟨r, hr, hvault, rfl, hversion, _, hlast, hle⟩
  · rintro ⟨r, hr, hvault, rfl, hversion, last, hlast, hle⟩
    have hr' : r.toRevision ∈ s.logAfter (s.conns c) :=
      mem_logAfter.mpr ⟨h.sound.history.stored r hr, hvault, hversion⟩
    rw [huids] at hlast ⊢
    obtain ⟨y, hy, rfl⟩ := List.mem_map.mp (List.mem_of_getLast? hlast)
    rw [hsplit] at hr'
    rcases List.mem_append.mp hr' with hr' | hr'
    · exact List.mem_map.mpr ⟨r.toRevision, hr', rfl⟩
    · exact absurd (hbefore y hy _ hr') (not_lt.mpr hle)
  · rw [hnotices] at hn
    obtain ⟨x, hx, rfl⟩ := List.mem_map.mp hn
    obtain ⟨r, hr, rfl, hvault, -⟩ := hmem x hx
    exact ⟨r, hr, hvault, rfl⟩
  · intro before uid after hsent r hr hvault hversion hle
    exact (hacked before uid after hsent).2 r.toRevision
      (mem_logAfter.mpr ⟨h.sound.history.stored r hr, hvault, hversion⟩) hle

/-! ## Connections that are too slow -/

/-- More events are undelivered than the queue holds. -/
def Overflowed (s : State C) (k : Connection) : Prop :=
  eventCapacity < (s.undelivered k).length

def Phase.replaying : Phase → Bool
  | replay .. => true
  | _ => false

/-- The event that a connection has taken off its queue and not sent. -/
def Phase.inHand : Phase → Option Event
  | sending event | echoing _ event => some event
  | _ => none

/-- What a connection may still send that has overflowed as `k`: nothing, or what is left
of its replay, or the event it had in its hand. -/
def Late (k : Connection) (extra : List PushNotice) : Prop :=
  extra = [] ∨ (k.phase.replaying = true ∧ ∀ n ∈ extra, n.uid ≤ k.ready) ∨
    ∃ event, k.phase.inHand = some event ∧ extra = [event.notice]

/-- The same, once it has come to `phase`. -/
def LateAt (k : Connection) (phase : Phase) (extra : List PushNotice) : Prop :=
  match phase with
  | .replay .. => k.phase.replaying = true ∧ ∀ n ∈ extra, n.uid ≤ k.ready
  | .sending event | .echoing _ event => k.phase.inHand = some event ∧ extra = []
  | _ => Late k extra

theorem LateAt.late {k : Connection} {phase : Phase} {extra : List PushNotice}
    (h : LateAt k phase extra) : Late k extra := by
  unfold LateAt at h
  split at h
  · exact .inr (.inl h)
  · exact .inl h.2
  · exact .inl h.2
  · exact h

theorem LateAt.refl (k : Connection) : LateAt k k.phase [] := by
  unfold LateAt
  split
  · rename_i hphase
    exact ⟨by rw [hphase]; rfl, fun n hn => absurd hn List.not_mem_nil⟩
  · rename_i hphase
    exact ⟨by rw [hphase]; rfl, rfl⟩
  · rename_i hphase
    exact ⟨by rw [hphase]; rfl, rfl⟩
  · exact .inl rfl

/-- A connection `k` that was in the state `k₀` when it had overflowed. -/
structure Stuck (s : State C) (k₀ k : Connection) : Prop where
  initial : k.initial = false
  ready : k.ready = k₀.ready
  fresh : k.phase.fresh = false
  late : ∃ extra, k.notices = k₀.notices ++ extra ∧ LateAt k₀ k.phase extra
  overflowed : k.phase ≠ .closed → Overflowed s k

/-- Queues only grow while nothing is received. -/
theorem Overflowed.of_isPrefix {k : Connection} (h : Overflowed s k)
    (htopics : s.topics k.vault <+: s'.topics k.vault) : Overflowed s' k := by
  refine lt_of_lt_of_le h ?_
  simp only [State.undelivered, Receiver.undelivered, List.length_drop]
  exact Nat.sub_le_sub_right htopics.length_le _

/-- Moves of a connection that has overflowed. -/
theorem Stuck.move {k₀ k k' : Connection} (h : Stuck s k₀ k) (hordered : Ordered s k)
    (hmove : Move s k k') : Stuck s k₀ k' := by
  obtain ⟨extra, hextra, hlate⟩ := h.late
  have hlagging : ∀ {event r}, k.phase ≠ .closed →
      k.receiver.receive eventCapacity (s.topics k.vault) ≠ .value event r := by
    intro event r hopen hvalue
    have hlagged := receive_of_lagged (h.overflowed hopen)
    rw [hvalue] at hlagged
    cases hlagged
  have hsends : ∀ (more : List PushNotice) {m : Message} {phase : Phase}, m.notice?.toList = more →
      ((k.goes phase).sends m).notices = k₀.notices ++ (extra ++ more) := by
    intro more m phase hm
    rw [notices_sends, notices_goes, hextra, hm, List.append_assoc]
  have hfresh := h.fresh
  cases hmove with
  | init hphase _ => rw [hphase] at hfresh; cases hfresh
  | readVersion hphase => rw [hphase] at hfresh; cases hfresh
  | subscribe hphase _ => rw [hphase] at hfresh; cases hfresh
  | fetch hphase =>
    rw [hphase] at hlate
    exact ⟨h.initial, h.ready, rfl, ⟨extra, hextra, hlate⟩,
      fun _ => h.overflowed (by rw [hphase]; simp)⟩
  | replay hphase =>
    rename_i cursor r page more
    rw [hphase] at hlate
    -- what is left of a replay is not above the version it started with
    have hr : r.uid ≤ k₀.ready := by
      obtain ⟨done, todo, queued, -, hholds⟩ := hordered.flows (by rw [hphase]; rfl)
      rw [Holds, hphase] at hholds
      rw [← h.ready]
      exact (hholds.2.2.2.2 r (hholds.1.subset List.mem_cons_self)).2
    refine ⟨h.initial, h.ready, rfl, ⟨extra ++ [r.toNotice], hsends _ rfl, hlate.1, ?_⟩,
      fun _ => h.overflowed (by rw [hphase]; simp)⟩
    intro n hn
    rcases List.mem_append.mp hn with hn | hn
    · exact hlate.2 n hn
    · rw [List.mem_singleton.mp hn]
      exact hr
  | ready hphase =>
    rw [hphase] at hlate
    refine ⟨h.initial, h.ready, rfl, ⟨extra, ?_, .inr (.inl hlate)⟩,
      fun _ => h.overflowed (by rw [hphase]; simp)⟩
    rw [hsends [] rfl, List.append_nil]
  | begin hphase _ =>
    rw [hphase] at hlate
    exact ⟨h.initial, h.ready, rfl, ⟨extra, hextra, hlate⟩,
      fun _ => h.overflowed (by rw [hphase]; simp)⟩
  | receive hphase hvalue => exact absurd hvalue (hlagging (by rw [hphase]; simp))
  | receiveEcho hphase hvalue => exact absurd hvalue (hlagging (by rw [hphase]; simp))
  | send hphase =>
    rw [hphase] at hlate
    obtain ⟨hhand, rfl⟩ := hlate
    exact ⟨h.initial, h.ready, rfl, ⟨_, hsends _ rfl, .inr (.inr ⟨_, hhand, rfl⟩)⟩,
      fun _ => h.overflowed (by rw [hphase]; simp)⟩
  | echo hphase hnext =>
    rename_i uid event phase
    rw [hphase] at hlate
    obtain ⟨hhand, rfl⟩ := hlate
    have hlate' : Late k₀ [event.notice] := .inr (.inr ⟨event, hhand, rfl⟩)
    have hphase' : phase.fresh = false ∧ LateAt k₀ phase [event.notice] := by
      rw [hnext]
      split
      · exact ⟨rfl, hlate'⟩
      · split <;> exact ⟨rfl, hlate'⟩
    exact ⟨h.initial, h.ready, hphase'.1, ⟨_, hsends _ rfl, hphase'.2⟩,
      fun _ => h.overflowed (by rw [hphase]; simp)⟩
  | acknowledge hphase =>
    rw [hphase] at hlate
    refine ⟨h.initial, h.ready, rfl, ⟨extra, ?_, hlate⟩,
      fun _ => h.overflowed (by rw [hphase]; simp)⟩
    rw [hsends [] rfl, List.append_nil]
  | close => exact ⟨h.initial, h.ready, rfl, ⟨extra, hextra, hlate.late⟩, fun hne => absurd rfl hne⟩

/-- Elsewhere nothing is taken off a queue. -/
theorem Stuck.of_isPrefix {k₀ k : Connection} (h : Stuck s k₀ k)
    (htopics : s.topics k.vault <+: s'.topics k.vault) : Stuck s' k₀ k :=
  { h with overflowed := fun hopen => (h.overflowed hopen).of_isPrefix htopics }

/-- A connection with nothing in its hands goes on. -/
theorem Stuck.goes {k₀ k : Connection} {phase : Phase} (h : Stuck s k₀ k)
    (hopen : k.phase ≠ .closed) (hfresh : phase.fresh = false)
    (hlate : ∀ extra, Late k₀ extra → LateAt k₀ phase extra) :
    Stuck s k₀ (k.goes phase) := by
  obtain ⟨extra, hextra, hl⟩ := h.late
  exact ⟨h.initial, h.ready, hfresh, ⟨extra, hextra, hlate extra hl.late⟩,
    fun _ => h.overflowed hopen⟩

variable [DecidableEq C]

theorem isPrefix_publish (s : State C) (c : C) (r : Revision) (vault : String) :
    s.topics vault <+: (s.publish c r).topics vault := by
  show _ <+: Function.update s.topics r.vaultId (s.topics r.vaultId ++ [r.toEvent]) vault
  by_cases hvault : vault = r.vaultId
  · rw [hvault, Function.update_self]
    exact List.prefix_append _ _
  · exact (Function.update_of_ne hvault _ _).symm ▸ List.prefix_rfl

theorem Stuck.step {k₀ : Connection} (hs : InOrder s) (h : Stuck s k₀ (s.conns c))
    (hstep : Step s a s') : Stuck s' k₀ (s'.conns c) := by
  have hother : ∀ {c' k}, c ≠ c' → Function.update s.conns c' k c = s.conns c := fun hne =>
    Function.update_of_ne hne _ _
  cases hstep with
  | @move _ c' k lock hmove _ _ =>
    refine Stuck.of_isPrefix (s := s) ?_ List.prefix_rfl
    rw [State.set_conns]
    rcases eq_or_ne c c' with rfl | hc
    · rw [Function.update_self]
      exact h.move (hs.ordered c h.initial) hmove
    · rw [hother hc]
      exact h
  | @commit c' _ _ _ store r hphase _ _ _ _ =>
    refine Stuck.of_isPrefix (s := s) ?_ List.prefix_rfl
    rw [State.commit, State.set_conns]
    rcases eq_or_ne c c' with rfl | hc
    · rw [Function.update_self]
      exact h.goes (by rw [hphase]; simp) rfl fun _ => id
    · rw [hother hc]
      exact h
  | @retreat c' _ _ store hphase _ =>
    refine Stuck.of_isPrefix (s := s) ?_ List.prefix_rfl
    rw [State.retreat, State.set_conns]
    rcases eq_or_ne c c' with rfl | hc
    · rw [Function.update_self]
      exact h.goes (by rw [hphase]; simp) rfl fun _ => id
    · rw [hother hc]
      exact h
  | @publish c' r hphase _ =>
    refine Stuck.of_isPrefix (s := s) ?_ (isPrefix_publish s c' r _)
    rw [State.publish, State.set_conns]
    rcases eq_or_ne c c' with rfl | hc
    · rw [Function.update_self]
      exact h.goes (by rw [hphase]; simp) rfl fun _ => id
    · rw [hother hc]
      exact h
  | oversized hphase hsize =>
    exact absurd (hs.sound.size _ (hs.sound.pending _ _ hphase).1) (not_le.mpr hsize)
  | store _ _ => exact h.of_isPrefix List.prefix_rfl

/-- The next receive of a connection that has overflowed closes it. -/
theorem Stuck.closed {k₀ : Connection} (h : Stuck s k₀ (s.conns c))
    (hreceive : Next s (.receive c) s') :
    (s'.conns c).phase = .closed ∧ (s'.conns c).sent = (s.conns c).sent := by
  have hlagged : ∀ {phase}, (s.conns c).phase = phase → phase ≠ .closed →
      (s.conns c).receiver.receive eventCapacity (s.topics (s.conns c).vault) = .lagged := by
    rintro _ rfl hopen
    exact receive_of_lagged (h.overflowed hopen)
  simp only [Next, State.next] at hreceive
  split at hreceive
  · rename_i hphase
    rw [hlagged hphase (by simp)] at hreceive
    cases hreceive
    simp [Connection.goes]
  · rename_i uid hphase
    rw [hlagged hphase (by simp)] at hreceive
    cases hreceive
    simp [Connection.goes]
  · cases hreceive

end

/-! ## Runs -/

section

variable [DecidableEq C]

/-- Steps that purge nothing. -/
abbrev NextUnpurged : State C → Action C → State C → Prop :=
  Guarded (fun _ a => a.purges = false) Next

variable {s s' : State C} {as : List (Action C)} {c : C}

theorem InOrder.run (h : InOrder s) (hrun : Run NextUnpurged s as s') : InOrder s' := by
  refine Run.invariant_of_guard ?_ h hrun
  intro s a s' h hpurges hnext
  exact h.step hpurges (h.sound.next hnext).1

theorem Stuck.run {k₀ : Connection} (hs : InOrder s) (h : Stuck s k₀ (s.conns c))
    (hrun : Run NextUnpurged s as s') : Stuck s' k₀ (s'.conns c) := by
  refine (Run.invariant_of_guard (I := fun s => InOrder s ∧ Stuck s k₀ (s.conns c)) ?_ ⟨hs, h⟩
    hrun).2
  rintro s a s' ⟨hs, h⟩ hpurges hnext
  have hstep := (hs.sound.next hnext).1
  exact ⟨hs.step hpurges hstep, h.step hs hstep⟩

/-- A client that has reached a version of its vault is told every later revision once, in
order, and is never acknowledged a revision before it was told all up to it.  A connection
that has overflowed receives no other event: whatever happens, it sends at most what is left
of its replay or the one event it had in its hand, and its next receive closes it. -/
theorem changeStream_of_run {phc : PhcParser} {now : Int} {store : Store}
    (hverify : store.db.verifyConnection phc now = .ok ())
    (hrun : Run NextUnpurged (State.start store store.db.history) as s)
    (hinitial : (s.conns c).initial = false) :
    ChangeStream s (s.conns c) ∧
      ((s.conns c).phase.subscribed = true → Overflowed s (s.conns c) →
        ∀ {bs s'}, Run NextUnpurged s bs s' →
          (∃ extra, (s'.conns c).notices = (s.conns c).notices ++ extra ∧
            Late (s.conns c) extra) ∧
          ∀ {s''}, Next s' (.receive c) s'' →
            (s''.conns c).phase = .closed ∧ (s''.conns c).sent = (s'.conns c).sent) := by
  have hhistory := (LogicalInvariants.of_verifyConnection hverify).history store.constraints
  have horder : InOrder s := (InOrder.start store hhistory).run hrun
  refine ⟨horder.changeStream hinitial, fun hsubscribed hover bs s' hrun' => ?_⟩
  have hstuck : Stuck s (s.conns c) (s.conns c) := by
    refine ⟨hinitial, rfl, ?_, ⟨[], (List.append_nil _).symm, .refl _⟩, fun _ => hover⟩
    cases hphase : (s.conns c).phase <;>
      first | rfl | simp [hphase, Phase.subscribed] at hsubscribed
  have hstuck' := hstuck.run horder hrun'
  obtain ⟨extra, hextra, hlate⟩ := hstuck'.late
  exact ⟨⟨extra, hextra, hlate.late⟩, fun hreceive => hstuck'.closed hreceive⟩

end

/-! ## A slow reader -/

/-- A connection initialises, up to its first page. -/
def connect (c : Bool) : List (Action Bool) :=
  [.init c "vault" false 0, .readVersion c, .subscribe c, .fetch c]

/-- A connection pushes a tombstone and is acknowledged. -/
def pushTombstone (c : Bool) : List (Action Bool) :=
  [.begin c (.addEmptyRevision (notePush true 0 0) someTokenHash 10 10), .transact c ⟨500, 500⟩,
    .publish c, .receive c, .send c, .send c]

/-- The connection `true` has read a page of one revision, and before it sends it the
connection `false` pushes 33 more. -/
def slowReader : List (Action Bool) :=
  connect false ++ [.ready false] ++ pushTombstone false ++ connect true ++
    (List.replicate 33 (pushTombstone false)).flatten

/-- What the slow reader has sent when it overflows, after the rest of its page, and when it
comes to receive. -/
theorem slowReader_run : ∃ s s₁ s₂ s₃ : State Bool,
    Run NextUnpurged (State.start personalStore personalStore.db.history) slowReader s ∧
      (s.conns true).initial = false ∧ (s.conns true).phase.subscribed = true ∧
      (s.conns true).version ≤ (s.conns true).ready ∧ Overflowed s (s.conns true) ∧
      (s.conns true).notices = [] ∧ Next s (.send true) s₁ ∧
      (s₁.conns true).notices.map (·.uid) = [1] ∧ Next s₁ (.ready true) s₂ ∧
      Next s₂ (.receive true) s₃ := by
  have hrun : ((slowReader.foldlM State.next
      (State.start personalStore personalStore.db.history)).bind fun s =>
      (s.next (.send true)).bind fun s₁ => (s₁.next (.ready true)).bind fun s₂ =>
      (s₂.next (.receive true)).map fun _ =>
        (decide ((s.conns true).initial = false ∧ (s.conns true).phase.subscribed = true ∧
          (s.conns true).version ≤ (s.conns true).ready ∧
          eventCapacity < (s.undelivered (s.conns true)).length ∧ (s.conns true).notices = [] ∧
          (s₁.conns true).notices.map (·.uid) = [1]))) = some true := by
    decide +kernel
  obtain ⟨s, hs, h⟩ := Option.bind_eq_some_iff.mp hrun
  obtain ⟨s₁, hs₁, h⟩ := Option.bind_eq_some_iff.mp h
  obtain ⟨s₂, hs₂, h⟩ := Option.bind_eq_some_iff.mp h
  obtain ⟨s₃, hs₃, h⟩ := Option.map_eq_some_iff.mp h
  obtain ⟨h₁, h₂, h₃, h₄, h₅, h₆⟩ := of_decide_eq_true h
  exact ⟨s, s₁, s₂, s₃, .of_foldlM (by decide +kernel) hs, h₁, h₂, h₃, h₄, h₅, hs₁, h₆, hs₂, hs₃⟩

/-- The slow reader sends the rest of its page, and is closed when it comes to receive. -/
theorem changeStream_of_slow_reader : ∃ s s₂ s₃ : State Bool,
    Run NextUnpurged (State.start personalStore personalStore.db.history) slowReader s ∧
      ChangeStream s (s.conns true) ∧
      Run NextUnpurged s [.send true, .ready true] s₂ ∧
      (∃ extra, (s₂.conns true).notices = (s.conns true).notices ++ extra ∧
        Late (s.conns true) extra) ∧
      Next s₂ (.receive true) s₃ ∧ (s₃.conns true).phase = .closed := by
  obtain ⟨s, s₁, s₂, s₃, hrun, hinitial, hsubscribed, -, hover, -, hs₁, -, hs₂, hs₃⟩ :=
    slowReader_run
  have hrest : Run NextUnpurged s [.send true, .ready true] s₂ :=
    .cons ⟨rfl, hs₁⟩ (.cons ⟨rfl, hs₂⟩ (.nil s₂))
  have hverify : Database.verifyConnection onePhc personalStore.db 500 = .ok () := by
    decide +kernel
  obtain ⟨hstream, hlate⟩ := changeStream_of_run hverify hrun hinitial
  obtain ⟨hextra, hclosed⟩ := hlate hsubscribed hover hrest
  exact ⟨s, s₂, s₃, hrun, hstream, hrest, hextra, hs₃, (hclosed hs₃).1⟩

/-- A connection whose queue has overflowed does not close before it sends another notice. -/
theorem overflowed_reader_sends_notice : ∃ s s₁ : State Bool,
    Run NextUnpurged (State.start personalStore personalStore.db.history) slowReader s ∧
      (s.conns true).initial = false ∧ (s.conns true).version ≤ (s.conns true).ready ∧
      Overflowed s (s.conns true) ∧ (s.conns true).notices = [] ∧ Next s (.send true) s₁ ∧
      (s₁.conns true).notices.map (·.uid) = [1] := by
  obtain ⟨s, s₁, -, -, hrun, hinitial, -, hversion, hover, hnone, hs₁, hsent, -, -⟩ :=
    slowReader_run
  exact ⟨s, s₁, hrun, hinitial, hversion, hover, hnone, hs₁, hsent⟩

end Blackglass.Stream
