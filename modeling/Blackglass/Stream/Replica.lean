import Blackglass.Stream.Order

/-!
# Replicas of a vault

What a client makes of the notices it is sent.  A client keeps for every path of its vault
the `uid` of the newest revision, unless that one is a deletion; it starts with nothing, or
with what the vault was at some version.  The replay sends it what the database still has,
page by page, and a purge may take revisions away between two pages.  What a purge never
takes away is the newest revision of a path, and that is enough: at any time the replica
is right about every path whose newest revision is behind the cursor (`Agrees`), and on
every page the newest revisions are complete (`Replaying`).
-/

namespace Blackglass

open LastWriter

def Revision.entry (r : Revision) : Entry String :=
  { key := r.path, seq := r.uid, live := !r.deleted }

/-- A live notice sets the head of its path, a deleted notice removes the path. -/
def PushNotice.entry (n : PushNotice) : Entry String :=
  { key := n.path, seq := n.uid, live := !n.deleted }

/-- The heads of a vault's paths that are not deleted. -/
def Database.heads (db : Database) (vault : String) : String → Option Int :=
  current ((db.revisionsOf vault).map fun r => r.toRevision.entry)

namespace Stream

/-- The revisions of a vault in a history. -/
def inVault (log : List Revision) (vault : String) : List Revision :=
  log.filter fun x => x.vaultId = vault

/-- The heads of a vault's paths as they were at a version. -/
def headsAt (log : List Revision) (vault : String) (version : Int) : String → Option Int :=
  current (((inVault log vault).filter fun x => x.uid ≤ version).map Revision.entry)

/-- What the client of a connection starts with. -/
def Connection.firstMap (k : Connection) (log : List Revision) : String → Option Int :=
  if k.initial then fun _ => none else headsAt log k.vault k.version

/-- What the client of a connection has made of what it was sent. -/
def Connection.replica (k : Connection) (log : List Revision) : String → Option Int :=
  writeAll (k.firstMap log) (k.notices.map PushNotice.entry)

/-- A revision that is the newest of its path. -/
def Newest (log : List Revision) (vault : String) (x : Revision) : Prop :=
  x ∈ inVault log vault ∧ ∀ y ∈ inVault log vault, y.path = x.path → y.uid ≤ x.uid

/-- A replica is right about the paths whose newest revision it has `seen`, and knows of no
path that never was. -/
structure Agrees (log : List Revision) (vault : String) (m : String → Option Int)
    (seen : Revision → Prop) : Prop where
  heads : ∀ x, Newest log vault x → seen x → m x.path = x.entry.value
  paths : ∀ p, (∀ x ∈ inVault log vault, x.path ≠ p) → m p = none

/-- A revision that belongs into the snapshot of its vault at a version. -/
structure InSnapshot (log : List Revision) (vault : String) (ready : Int) (y : Revision) :
    Prop where
  mem : y ∈ inVault log vault
  live : y.deleted = false
  le : y.uid ≤ ready
  head : ∀ z ∈ inVault log vault, z.path = y.path → z.uid ≤ ready → z.uid ≤ y.uid

/-- A replay up to `ready` that has come to `cursor`, with the rest of a page at hand. -/
structure Replaying (log : List Revision) (vault : String) (initial : Bool) (ready : Int)
    (m : String → Option Int) (cursor : Int) (page : List Revision) (more : Bool) : Prop where
  agrees : Agrees log vault m fun x => x.uid ≤ cursor
  cursor_le : cursor ≤ ready
  page_mem : ∀ y ∈ page, y ∈ inVault log vault ∧ cursor < y.uid ∧ y.uid ≤ ready
  sorted : page.Pairwise fun x y => x.uid < y.uid
  complete : ∀ x, Newest log vault x → cursor < x.uid → x.uid ≤ ready →
    (initial = true → x.deleted = false) → x ∈ page ∨ (more = true ∧ ∀ y ∈ page, y.uid < x.uid)
  snapshot : initial = true → (∀ y ∈ page, InSnapshot log vault ready y) ∧
    ∀ p u, m p = some u → ∃ y, InSnapshot log vault ready y ∧ y.path = p ∧ y.uid = u

section

variable {log : List Revision} {k : Connection} {r x : Revision} {vault : String}
  {m : String → Option Int} {seen : Revision → Prop} {initial more : Bool} {ready cursor : Int}
  {page : List Revision}

theorem mem_inVault : x ∈ inVault log vault ↔ x ∈ log ∧ x.vaultId = vault := by
  simp [inVault]

theorem mem_inVault_append : x ∈ inVault (log ++ [r]) vault ↔
    x ∈ inVault log vault ∨ (x = r ∧ r.vaultId = vault) := by
  rw [mem_inVault, mem_inVault, List.mem_append, List.mem_singleton]
  constructor
  · rintro ⟨hx | rfl, hvault⟩
    · exact .inl ⟨hx, hvault⟩
    · exact .inr ⟨rfl, hvault⟩
  · rintro (⟨hx, hvault⟩ | ⟨rfl, hvault⟩)
    · exact ⟨.inl hx, hvault⟩
    · exact ⟨.inr rfl, hvault⟩

/-- The newest revisions of a longer history are those of the shorter one, but for the
path of the revision that was added. -/
theorem Newest.of_append (h : Newest (log ++ [r]) vault x) (hne : x ≠ r) : Newest log vault x := by
  obtain ⟨hx, hmax⟩ := h
  rcases mem_inVault_append.mp hx with hx | ⟨rfl, -⟩
  · exact ⟨hx, fun y hy => hmax y (mem_inVault_append.mpr (.inl hy))⟩
  · exact absurd rfl hne

theorem firstMap_append (hversion : k.initial = false → k.version < r.uid) :
    k.firstMap (log ++ [r]) = k.firstMap log := by
  unfold Connection.firstMap
  split
  · rfl
  · rename_i hinitial
    have hlt : ¬r.uid ≤ k.version := not_le.mpr (hversion (by simpa using hinitial))
    have hfilter : ((inVault (log ++ [r]) k.vault).filter fun x => x.uid ≤ k.version) =
        (inVault log k.vault).filter fun x => x.uid ≤ k.version := by
      rw [inVault, List.filter_append, List.filter_append]
      by_cases hv : r.vaultId = k.vault
      · simp [hv, hlt, inVault]
      · simp [hv, inVault]
    rw [headsAt, hfilter]
    rfl

theorem replica_append (hversion : k.initial = false → k.version < r.uid) :
    k.replica (log ++ [r]) = k.replica log := by
  rw [Connection.replica, firstMap_append hversion]
  rfl

/-! ## Commits -/

theorem Agrees.commit (h : Agrees log vault m seen) (hseen : ¬seen r) :
    Agrees (log ++ [r]) vault m seen := by
  refine ⟨fun x hx hs => h.heads x (hx.of_append ?_) hs, fun p hp => h.paths p fun x hx =>
    hp x (mem_inVault_append.mpr (.inl hx))⟩
  rintro rfl
  exact hseen hs

theorem InSnapshot.commit (h : InSnapshot log vault ready x) (hready : ready < r.uid) :
    InSnapshot (log ++ [r]) vault ready x := by
  refine ⟨mem_inVault_append.mpr (.inl h.mem), h.live, h.le, fun z hz hpath hle => ?_⟩
  rcases mem_inVault_append.mp hz with hz | ⟨rfl, -⟩
  · exact h.head z hz hpath hle
  · exact absurd hready (not_lt.mpr hle)

theorem Replaying.commit (h : Replaying log vault initial ready m cursor page more)
    (hready : ready < r.uid) : Replaying (log ++ [r]) vault initial ready m cursor page more := by
  refine ⟨h.agrees.commit ?_, h.cursor_le, fun y hy => ?_, h.sorted, ?_, fun hi => ?_⟩
  · exact not_le.mpr (h.cursor_le.trans_lt hready)
  · obtain ⟨hmem, hrange⟩ := h.page_mem y hy
    exact ⟨mem_inVault_append.mpr (.inl hmem), hrange⟩
  · intro x hx hlt hle hlive
    refine h.complete x (hx.of_append ?_) hlt hle hlive
    rintro rfl
    exact absurd hready (not_lt.mpr hle)
  · obtain ⟨hpage, hreplica⟩ := h.snapshot hi
    refine ⟨fun y hy => (hpage y hy).commit hready, fun p u hu => ?_⟩
    obtain ⟨y, hy, hpath, huid⟩ := hreplica p u hu
    exact ⟨y, hy.commit hready, hpath, huid⟩

/-! ## Notices -/

@[simp] theorem replica_goes (phase : Phase) : (k.goes phase).replica log = k.replica log := rfl

theorem replica_sends (x : Revision) :
    (k.sends (.notice x.toNotice)).replica log = write (k.replica log) x.entry := by
  rw [Connection.replica, notices_sends, List.map_append]
  exact writeAll_append_singleton _

theorem replica_sends_other {msg : Message} (h : msg.notice? = none) :
    (k.sends msg).replica log = k.replica log := by
  rw [Connection.replica, notices_sends, h, Option.toList, List.append_nil]
  rfl

/-- A replica is told a revision of the vault.  It stays right about the other paths, and
becomes right about the path of the revision, if no newer one of it was seen. -/
theorem Agrees.write {seen' : Revision → Prop} (h : Agrees log vault m seen)
    (hx : x ∈ inVault log vault)
    (hself : ∀ y, Newest log vault y → seen' y → y.path = x.path → y = x)
    (hother : ∀ y, Newest log vault y → seen' y → y.path ≠ x.path → m y.path = y.entry.value) :
    Agrees log vault (write m x.entry) seen' := by
  refine ⟨fun y hy hs => ?_, fun p hp => ?_⟩
  · by_cases hpath : y.path = x.path
    · rw [hself y hy hs hpath]
      exact write_self
    · rw [write_of_ne hpath]
      exact hother y hy hs hpath
  · rw [write_of_ne fun heq => hp x hx heq.symm]
    exact h.paths p hp

/-- In a snapshot, a path whose newest revision is a deletion is not there. -/
theorem Replaying.value_of_deleted (h : Replaying log vault initial ready m cursor page more)
    (hsorted : log.Pairwise fun x y => x.uid < y.uid) (hi : initial = true)
    (hx : Newest log vault x) (hdeleted : x.deleted = true) (hle : x.uid ≤ ready) :
    m x.path = x.entry.value := by
  have hvalue : x.entry.value = none := by simp [Revision.entry, Entry.value, hdeleted]
  rw [hvalue]
  cases hm : m x.path with
  | none => rfl
  | some u =>
    obtain ⟨y, hy, hpath, -⟩ := (h.snapshot hi).2 x.path u hm
    have huid : x.uid = y.uid :=
      le_antisymm (hy.head x hx.1 hpath.symm hle) (hx.2 y hy.mem hpath)
    have heq := eq_of_uid hsorted (mem_inVault.mp hx.1).1 (mem_inVault.mp hy.mem).1 huid
    have hlive := hy.live
    rw [← heq, hdeleted] at hlive
    cases hlive

/-- The newest revision of a path that the replay has still to come to is on the page or
after it, unless the replica is right about the path already. -/
theorem Replaying.settled_or (h : Replaying log vault initial ready m cursor page more)
    (hsorted : log.Pairwise fun x y => x.uid < y.uid) (hx : Newest log vault x)
    (hle : x.uid ≤ ready) : m x.path = x.entry.value ∨ x ∈ page ∨
      (more = true ∧ ∀ y ∈ page, y.uid < x.uid) := by
  by_cases hcursor : x.uid ≤ cursor
  · exact .inl (h.agrees.heads x hx hcursor)
  · by_cases hdeleted : initial = true ∧ x.deleted = true
    · exact .inl (h.value_of_deleted hsorted hdeleted.1 hx hdeleted.2 hle)
    · refine .inr (h.complete x hx (not_le.mp hcursor) hle fun hi => ?_)
      simpa using fun hd => hdeleted ⟨hi, hd⟩

/-- The next revision of the page is sent. -/
theorem Replaying.write (hsorted : log.Pairwise fun x y => x.uid < y.uid)
    (h : Replaying log vault initial ready m cursor (r :: page) more) :
    Replaying log vault initial ready (write m r.entry) r.uid page more := by
  obtain ⟨hr, hlt, hle⟩ := h.page_mem r List.mem_cons_self
  obtain ⟨hfirst, hpage⟩ := List.pairwise_cons.mp h.sorted
  refine ⟨h.agrees.write hr ?_ ?_, hle, fun y hy => ?_, hpage, ?_, fun hi => ⟨fun y hy => ?_, ?_⟩⟩
  · intro y hy hs hpath
    exact eq_of_uid hsorted (mem_inVault.mp hy.1).1 (mem_inVault.mp hr).1
      (le_antisymm hs (hy.2 r hr hpath.symm))
  · intro y hy hs hpath
    rcases h.settled_or hsorted hy (hs.trans hle) with hvalue | hmem | ⟨-, hlater⟩
    · exact hvalue
    · rcases List.mem_cons.mp hmem with rfl | hmem
      · exact absurd rfl hpath
      · exact absurd (hfirst y hmem) (not_lt.mpr hs)
    · exact absurd (hlater r List.mem_cons_self) (not_lt.mpr hs)
  · obtain ⟨hmem, -, hyle⟩ := h.page_mem y (List.mem_cons_of_mem _ hy)
    exact ⟨hmem, hfirst y hy, hyle⟩
  · intro x hx hxlt hxle hlive
    rcases h.complete x hx (hlt.trans hxlt) hxle hlive with hmem | ⟨hmore, hlater⟩
    · rcases List.mem_cons.mp hmem with rfl | hmem
      · exact absurd hxlt (lt_irrefl _)
      · exact .inl hmem
    · exact .inr ⟨hmore, fun y hy => hlater y (List.mem_cons_of_mem _ hy)⟩
  · exact (h.snapshot hi).1 y (List.mem_cons_of_mem _ hy)
  · intro p u hu
    by_cases hpath : p = r.path
    · subst hpath
      have hsnap := (h.snapshot hi).1 r List.mem_cons_self
      have hvalue : LastWriter.write m r.entry r.path = r.entry.value := write_self
      rw [hvalue] at hu
      refine ⟨r, hsnap, rfl, ?_⟩
      simpa [Revision.entry, Entry.value, hsnap.live] using hu
    · rw [write_of_ne hpath] at hu
      exact (h.snapshot hi).2 p u hu

/-- A replay that has nothing left to send is right about everything up to its version. -/
theorem Replaying.finished (h : Replaying log vault initial ready m cursor [] false)
    (hsorted : log.Pairwise fun x y => x.uid < y.uid) :
    Agrees log vault m fun x => x.uid ≤ ready := by
  refine ⟨fun x hx hle => ?_, h.agrees.paths⟩
  rcases h.settled_or hsorted hx hle with hvalue | hmem | ⟨hmore, -⟩
  · exact hvalue
  · exact absurd hmem List.not_mem_nil
  · cases hmore

/-! ## The start of a replay, and its pages -/

theorem Replaying.start_initial (hpos : ∀ x ∈ log, 0 < x.uid) (hready : 0 ≤ ready) :
    Replaying log vault true ready (fun _ => none) 0 [] true where
  agrees := ⟨fun x hx hle => absurd (hpos x (mem_inVault.mp hx.1).1) (not_lt.mpr hle),
    fun _ _ => rfl⟩
  cursor_le := hready
  page_mem _ hy := absurd hy List.not_mem_nil
  sorted := .nil
  complete _ _ _ _ _ := .inr ⟨rfl, fun _ hy => absurd hy List.not_mem_nil⟩
  snapshot _ := ⟨fun _ hy => absurd hy List.not_mem_nil, (fun _ _ hu => nomatch hu)⟩

/-- A client that holds the heads as they were at a version is right about every path that
has not changed since. -/
theorem Replaying.start_version {version : Int} (hsorted : log.Pairwise fun x y => x.uid < y.uid)
    (hversion : version ≤ ready) :
    Replaying log vault false ready (headsAt log vault version) version [] true := by
  have hnodup : ((((inVault log vault).filter fun x => x.uid ≤ version).map
      Revision.entry).map Entry.seq).Nodup := by
    rw [List.map_map]
    exact nodup_of_sorted ((hsorted.filter _).filter _)
  refine ⟨⟨fun x hx hle => ?_, fun p hp => ?_⟩, hversion, fun _ hy => absurd hy List.not_mem_nil,
    .nil, fun _ _ _ _ _ => .inr ⟨rfl, fun _ hy => absurd hy List.not_mem_nil⟩,
    (fun hi => nomatch hi)⟩
  · refine current_of_isHead (e := x.entry) hnodup ⟨?_, fun e he hkey => ?_⟩
    · exact List.mem_map_of_mem (List.mem_filter.mpr ⟨hx.1, by simpa using hle⟩)
    · obtain ⟨y, hy, rfl⟩ := List.mem_map.mp he
      exact hx.2 y (List.mem_of_mem_filter hy) hkey
  · refine current_of_forall_ne fun e he => ?_
    obtain ⟨y, hy, rfl⟩ := List.mem_map.mp he
    exact hp y (List.mem_of_mem_filter hy)

theorem Replaying.start (hsorted : log.Pairwise fun x y => x.uid < y.uid)
    (hpos : ∀ x ∈ log, 0 < x.uid) (hready : 0 ≤ k.ready)
    (hversion : k.initial = false → k.version ≤ k.ready) :
    Replaying log k.vault k.initial k.ready (k.firstMap log)
      (if k.initial then 0 else k.version) [] true := by
  unfold Connection.firstMap
  cases hinitial : k.initial with
  | true => exact .start_initial hpos hready
  | false => exact .start_version hsorted (hversion hinitial)

/-- The newest revision of a path is in the database. -/
theorem stored_of_newest {db : Database} (h : History db log) (hx : Newest log vault x) :
    ∃ r ∈ db.revisions, r.toRevision = x := by
  obtain ⟨hmem, hvault⟩ := mem_inVault.mp hx.1
  obtain ⟨r, hr, hrvault, hpath, hle⟩ := h.retained x hmem
  have hr' : r.toRevision ∈ inVault log vault :=
    mem_inVault.mpr ⟨h.stored r hr, hrvault.trans hvault⟩
  exact ⟨r, hr, eq_of_uid h.sorted (h.stored r hr) hmem (le_antisymm (hx.2 _ hr' hpath) hle)⟩

/-- The first rows of a sorted selection: another row of it comes after them, and then they
are as many as was asked for. -/
theorem mem_take_or {xs : List Revision} (hxs : xs.Pairwise fun x y => x.uid < y.uid) (n : Nat)
    (hx : x ∈ xs) : x ∈ xs.take n ∨ ((xs.take n).length = n ∧ ∀ y ∈ xs.take n, y.uid < x.uid) := by
  rw [← List.take_append_drop n xs] at hx hxs
  rcases List.mem_append.mp hx with hx | hx
  · exact .inl hx
  · refine .inr ⟨?_, fun y hy => (List.pairwise_append.mp hxs).2.2 y hy x hx⟩
    have hpos := List.length_pos_of_mem hx
    rw [List.length_drop] at hpos
    rw [List.length_take]
    omega

/-- A page of a sorted selection of revisions, read when the replay has sent all of the
last one. -/
theorem Replaying.fetch {xs : List Revision}
    (h : Replaying log vault initial ready m cursor [] true)
    (hxs : xs.Pairwise fun x y => x.uid < y.uid)
    (hmem : ∀ y ∈ xs, y ∈ inVault log vault ∧ cursor < y.uid ∧ y.uid ≤ ready)
    (hcomplete : ∀ x, Newest log vault x → cursor < x.uid → x.uid ≤ ready →
      (initial = true → x.deleted = false) → x ∈ xs)
    (hsnapshot : initial = true → ∀ y ∈ xs, InSnapshot log vault ready y) :
    Replaying log vault initial ready m cursor (xs.take 16)
      (replayPageSize ≤ (xs.take 16).length) := by
  refine ⟨h.agrees, h.cursor_le, fun y hy => hmem y (List.mem_of_mem_take hy),
    hxs.sublist (List.take_sublist _ _), fun x hx hlt hle hlive => ?_, fun hi => ?_⟩
  · refine (mem_take_or hxs 16 (hcomplete x hx hlt hle hlive)).imp_right fun hlater => ?_
    exact ⟨by rw [hlater.1]; rfl, hlater.2⟩
  · exact ⟨fun y hy => hsnapshot hi y (List.mem_of_mem_take hy), (h.snapshot hi).2⟩

/-- The changes after the cursor, as far as they are still in the database. -/
theorem Replaying.fetch_changes {db : Database}
    (h : Replaying log vault false ready m cursor [] true) (hhistory : History db log)
    (hc : Constraints db) :
    Replaying log vault false ready m cursor
      (db.listChangesPage vault cursor ready replayPageSize)
      (replayPageSize ≤ (db.listChangesPage vault cursor ready replayPageSize).length) := by
  rw [Database.listChangesPage, pageByUid_eq]
  refine h.fetch (hc.pairwise_filter _) (fun y hy => ?_) (fun x hx hlt hle _ => ?_)
    (fun hi => Bool.noConfusion hi)
  · obtain ⟨r, hr, rfl⟩ := mem_sortedRevisions.mp hy
    obtain ⟨hr, hsel⟩ := List.mem_filter.mp hr
    simp only [Bool.and_eq_true, decide_eq_true_eq] at hsel
    exact ⟨mem_inVault.mpr ⟨hhistory.stored r hr, hsel.1.1⟩, hsel.1.2, hsel.2⟩
  · obtain ⟨r, hr, rfl⟩ := stored_of_newest hhistory hx
    refine mem_sortedRevisions.mpr ⟨r, List.mem_filter.mpr ⟨hr, ?_⟩, rfl⟩
    simp only [Bool.and_eq_true, decide_eq_true_eq]
    exact ⟨⟨(mem_inVault.mp hx.1).2, hlt⟩, hle⟩

/-- The heads at the version of the replay, as far as they are still in the database. -/
theorem Replaying.fetch_snapshot {db : Database}
    (h : Replaying log vault true ready m cursor [] true) (hhistory : History db log)
    (hc : Constraints db) :
    Replaying log vault true ready m cursor
      (db.initialSnapshotPage vault cursor ready replayPageSize)
      (replayPageSize ≤ (db.initialSnapshotPage vault cursor ready replayPageSize).length) := by
  have hhead : ∀ r ∈ db.revisions, r.uid ∈ db.headUidsThrough vault ready ↔
      r.vaultId = vault ∧ r.uid ≤ ready ∧ ∀ r' ∈ db.revisions, r'.vaultId = vault →
        r'.uid ≤ ready → r'.path = r.path → r'.uid ≤ r.uid := by
    intro r hr
    rw [Database.headUidsThrough, Rows.mem_groupMax]
    simp only [List.mem_filter, Bool.and_eq_true, decide_eq_true_eq]
    constructor
    · rintro ⟨r₀, ⟨hr₀, hvault, hle⟩, huid, hmax⟩
      obtain rfl := hc.eq_of_revisionUid hr₀ hr huid
      exact ⟨hvault, hle, fun r' hr' hv hl hpath => hmax r' ⟨hr', hv, hl⟩ hpath⟩
    · rintro ⟨hvault, hle, hmax⟩
      exact ⟨r, ⟨hr, hvault, hle⟩, rfl, fun r' hr' hpath => hmax r' hr'.1 hr'.2.1 hr'.2.2 hpath⟩
  have hsel : ∀ {y}, y ∈ sortedRevisions (db.revisions.filter fun r =>
      r.uid ∈ db.headUidsThrough vault ready && !r.deleted && r.uid > cursor) ↔
        ∃ r ∈ db.revisions, r.toRevision = y ∧ r.uid ∈ db.headUidsThrough vault ready ∧
          r.deleted = false ∧ cursor < r.uid := by
    intro y
    rw [mem_sortedRevisions]
    simp only [List.mem_filter, Bool.and_eq_true, decide_eq_true_eq, Bool.not_eq_true', gt_iff_lt]
    constructor
    · rintro ⟨r, ⟨hr, ⟨hmax, hlive⟩, hlt⟩, rfl⟩
      exact ⟨r, hr, rfl, hmax, hlive, hlt⟩
    · rintro ⟨r, hr, rfl, hmax, hlive, hlt⟩
      exact ⟨r, ⟨hr, ⟨hmax, hlive⟩, hlt⟩, rfl⟩
  rw [Database.initialSnapshotPage, pageByUid_eq]
  refine h.fetch (hc.pairwise_filter _) (fun y hy => ?_) (fun x hx hlt hle hlive => ?_)
    (fun _ y hy => ?_)
  · obtain ⟨r, hr, rfl, hmax, -, hlt⟩ := hsel.mp hy
    obtain ⟨hvault, hle, -⟩ := (hhead r hr).mp hmax
    exact ⟨mem_inVault.mpr ⟨hhistory.stored r hr, hvault⟩, hlt, hle⟩
  · obtain ⟨r, hr, rfl⟩ := stored_of_newest hhistory hx
    have hvault := (mem_inVault.mp hx.1).2
    refine hsel.mpr ⟨r, hr, rfl, (hhead r hr).mpr ⟨hvault, hle, fun r' hr' hv _ hpath => ?_⟩,
      hlive rfl, hlt⟩
    exact hx.2 r'.toRevision (mem_inVault.mpr ⟨hhistory.stored r' hr', hv⟩) hpath
  · obtain ⟨r, hr, rfl, hmax, hlive, -⟩ := hsel.mp hy
    obtain ⟨hvault, hle, hmax⟩ := (hhead r hr).mp hmax
    refine ⟨mem_inVault.mpr ⟨hhistory.stored r hr, hvault⟩, hlive, hle, fun z hz hpath hzle => ?_⟩
    obtain ⟨hzlog, hzvault⟩ := mem_inVault.mp hz
    -- whatever is newer than a row of its path is in the database too
    by_contra hlt
    obtain ⟨r', hr', rfl⟩ := hhistory.newer r hr z hzlog (hzvault.trans hvault.symm) hpath
      (not_le.mp hlt).le
    exact hlt (hmax r' hr' hzvault hzle hpath)

end

end Stream

end Blackglass
