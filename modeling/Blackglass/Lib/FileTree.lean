import Mathlib.Data.List.Basic
import Mathlib.Data.Set.Defs
import Mathlib.Tactic.Common

/-!
# File trees and the texts of paths

A directory has named entries, and a path text is looked up in it segment by segment: empty
segments and dots stay where they are, and what a symbolic link leads to is not part of the tree.
So one file has many path texts.  The text that is made by joining names (`joinAll`) is the one
that splits into these names again (`segments_joinAll`); it finds what is below the directory under
these names (`locate_of_below`).
-/

namespace FileTree

/-! ## The texts of paths -/

/-- What stands between the slashes of a path text. -/
def segments (path : String) : List String := (path.toList.splitOn '/').map String.ofList

/-- What can be the name of a directory entry. -/
def IsName (s : String) : Prop := s ≠ "" ∧ s ≠ "." ∧ s ≠ ".." ∧ '/' ∉ s.toList

instance (s : String) : Decidable (IsName s) := inferInstanceAs (Decidable (_ ∧ _ ∧ _ ∧ _))

/-- Non-empty segments joined by single slashes, no dot and no double dot. -/
def IsCanonical (path : String) : Prop := ∀ s ∈ segments path, s ≠ "" ∧ s ≠ "." ∧ s ≠ ".."

/-- A relative path behind another path, with a slash between them if there has to be one. -/
def joinPath (base path : String) : String :=
  if base.toList.getLast?.all (· == '/') then base ++ path else base ++ "/" ++ path

def joinAll (base : String) (names : List String) : String := names.foldl joinPath base

theorem joinAll_cons (base name : String) (names : List String) :
    joinAll base (name :: names) = joinAll (joinPath base name) names := rfl

/-- The text does not end with a slash. -/
def Open (base : String) : Prop := base.toList.getLast?.all (· == '/') = false

theorem IsName.getLast?_ne {name : String} (h : IsName name) (base : List Char) :
    (base ++ name.toList).getLast?.all (· == '/') = false := by
  obtain ⟨hne, -, -, hslash⟩ := h
  have hnil : name.toList ≠ [] := fun hnil => hne (String.toList_eq_nil_iff.mp hnil)
  rw [List.getLast?_append, List.getLast?_eq_some_getLast hnil, Option.some_or, Option.all_some,
    beq_eq_false_iff_ne]
  intro hlast
  exact hslash (hlast ▸ List.getLast_mem hnil)

theorem joinPath_of_open {base : String} (h : Open base) (path : String) :
    joinPath base path = base ++ "/" ++ path := by
  rw [joinPath, h, if_neg Bool.false_ne_true]

theorem joinPath_empty (path : String) : joinPath "" path = path := by
  rw [joinPath, if_pos (by decide), String.empty_append]

theorem joinAll_toList_of_open {base : String} {names : List String} (hbase : Open base)
    (hnames : ∀ n ∈ names, IsName n) :
    (joinAll base names).toList = ['/'].intercalate (base.toList :: names.map String.toList) := by
  induction names generalizing base with
  | nil => rw [List.map_nil, List.intercalate_singleton]; rfl
  | cons n names ih =>
    obtain ⟨hn, hnames⟩ := List.forall_mem_cons.mp hnames
    have htext : (joinPath base n).toList = base.toList ++ ['/'] ++ n.toList := by
      rw [joinPath_of_open hbase, String.toList_append, String.toList_append]
      rfl
    have hopen : Open (joinPath base n) := by
      rw [Open, htext]
      exact hn.getLast?_ne _
    rw [joinAll_cons, ih hopen hnames, htext, List.map_cons, List.intercalate_cons_cons]
    cases names with
    | nil => rw [List.map_nil, List.intercalate_singleton, List.intercalate_singleton]
    | cons m names =>
      rw [List.map_cons, List.intercalate_cons_cons, List.intercalate_cons_cons]
      simp only [List.append_assoc]

/-- Names that have been joined are found again. -/
theorem segments_joinAll {names : List String} (hne : names ≠ []) (hnames : ∀ n ∈ names, IsName n) :
    segments (joinAll "" names) = names := by
  cases names with
  | nil => exact absurd rfl hne
  | cons n names =>
    obtain ⟨hn, hrest⟩ := List.forall_mem_cons.mp hnames
    have hopen : Open n := hn.getLast?_ne []
    have htext : (joinAll "" (n :: names)).toList =
        ['/'].intercalate ((n :: names).map String.toList) := by
      rw [joinAll_cons, joinPath_empty, joinAll_toList_of_open hopen hrest, List.map_cons]
    rw [segments, htext, List.splitOn_intercalate, List.map_map]
    · simp
    · intro l hl
      obtain ⟨m, hm, rfl⟩ := List.mem_map.mp hl
      exact (hnames m hm).2.2.2
    · exact List.cons_ne_nil _ _

theorem isCanonical_joinAll {names : List String} (hne : names ≠ [])
    (hnames : ∀ n ∈ names, IsName n) : IsCanonical (joinAll "" names) := by
  intro s hs
  rw [segments_joinAll hne hnames] at hs
  obtain ⟨hempty, hdot, hdots, -⟩ := hnames s hs
  exact ⟨hempty, hdot, hdots⟩

theorem joinAll_inj {xs ys : List String} (hxs : xs ≠ []) (hys : ys ≠ [])
    (hnames : ∀ n ∈ xs, IsName n) (hnames' : ∀ n ∈ ys, IsName n)
    (h : joinAll "" xs = joinAll "" ys) : xs = ys := by
  rw [← segments_joinAll hxs hnames, h, segments_joinAll hys hnames']

/-! ## Components -/

/-- The parts of a path as `std::path` reads it. -/
inductive Component where
  | rootDir
  | curDir
  | parentDir
  | normal (name : String)
deriving DecidableEq

/-- The name, if the part is one. -/
def Component.name? : Component → Option String
  | .normal name => some name
  | _ => none

def isAbsolute (path : String) : Bool := path.toList.head? == some '/'

def component (s : String) : Option Component :=
  if s = "" ∨ s = "." then none else if s = ".." then some .parentDir else some (.normal s)

/-- A dot counts at the beginning of a relative path only. -/
def components (path : String) : List Component :=
  (if isAbsolute path then [.rootDir] else if (segments path).head? = some "." then [.curDir]
    else []) ++ (segments path).filterMap component

theorem isAbsolute_of_isCanonical {path : String} (h : IsCanonical path) :
    isAbsolute path = false := by
  cases htext : path.toList with
  | nil => rw [isAbsolute, htext]; rfl
  | cons c cs =>
    rw [isAbsolute, htext, List.head?_cons, beq_eq_false_iff_ne]
    intro hslash
    obtain rfl := Option.some.inj hslash
    refine (h "" ?_).1 rfl
    rw [segments, htext, List.splitOn, List.splitOnP_cons_eq_if_modifyHead, if_pos (by decide)]
    exact List.mem_cons_self

theorem components_of_isCanonical {path : String} (h : IsCanonical path) :
    components path = (segments path).map .normal := by
  have hhead : (segments path).head? ≠ some "." := fun hdot =>
    (h "." (List.mem_of_head? hdot)).2.1 rfl
  have hnormal : ∀ s ∈ segments path, component s = some (.normal s) := by
    intro s hs
    obtain ⟨hempty, hdot, hdots⟩ := h s hs
    rw [component, if_neg (not_or.mpr ⟨hempty, hdot⟩), if_neg hdots]
  rw [components, isAbsolute_of_isCanonical h, if_neg Bool.false_ne_true, if_neg hhead,
    List.nil_append, List.filterMap_congr hnormal, List.filterMap_eq_map']

/-! ## Trees -/

/-- The name of a directory entry as it is shown; it need not be UTF-8. -/
structure FileName where
  shown : String
  utf8 : Bool
  proper : utf8 = true → IsName shown

/-- The name, if it is a text. -/
def FileName.text? (name : FileName) : Option String := if name.utf8 then some name.shown else none

inductive Entry (α : Type) where
  | file (content : α)
  | directory (entries : List (FileName × Entry α))
  | symlink
  | other

/-- What an entry is, apart from what it has inside. -/
inductive Node (α : Type) where
  | file (content : α)
  | directory
  | symlink
  | other

variable {α : Type}

def Entry.node : Entry α → Node α
  | .file content => .file content
  | .directory _ => .directory
  | .symlink => .symlink
  | .other => .other

/-- Names that are texts are distinct in every directory. -/
inductive Entry.Distinct : Entry α → Prop where
  | file (content : α) : Distinct (.file content)
  | directory {entries : List (FileName × Entry α)} :
      (entries.filterMap fun e => e.1.text?).Nodup → (∀ e ∈ entries, Distinct e.2) →
      Distinct (.directory entries)
  | symlink : Distinct .symlink
  | other : Distinct .other

/-- What is below a directory, under which names. -/
inductive Below : List (FileName × Entry α) → List (Option String) → Entry α → Prop where
  | entry {entries : List (FileName × Entry α)} {name : FileName} {e : Entry α} :
      (name, e) ∈ entries → Below entries [name.text?] e
  | inside {entries inner : List (FileName × Entry α)} {name : FileName}
      {path : List (Option String)} {e : Entry α} :
      (name, .directory inner) ∈ entries → Below inner path e →
      Below entries (name.text? :: path) e

/-- Everything below a directory. -/
def contents (entries : List (FileName × Entry α)) : Set (List (Option String) × Node α) :=
  fun x => ∃ e, Below entries x.1 e ∧ e.node = x.2

theorem FileName.isName_of_text? {name : FileName} {s : String} (h : name.text? = some s) :
    IsName s := by
  rw [text?] at h
  split at h
  · next hutf8 => exact Option.some.inj h ▸ name.proper hutf8
  · cases h

theorem below_append_iff {xs ys : List (FileName × Entry α)} {path : List (Option String)}
    {e : Entry α} : Below (xs ++ ys) path e ↔ Below xs path e ∨ Below ys path e := by
  constructor
  · intro h
    cases h with
    | entry hmem => exact (List.mem_append.mp hmem).imp .entry .entry
    | inside hmem hbelow =>
      exact (List.mem_append.mp hmem).imp (.inside · hbelow) (.inside · hbelow)
  · rintro (h | h)
    · cases h with
      | entry hmem => exact .entry (List.mem_append_left _ hmem)
      | inside hmem hbelow => exact .inside (List.mem_append_left _ hmem) hbelow
    · cases h with
      | entry hmem => exact .entry (List.mem_append_right _ hmem)
      | inside hmem hbelow => exact .inside (List.mem_append_right _ hmem) hbelow

theorem not_below_nil {path : List (Option String)} {e : Entry α} : ¬Below [] path e := by
  intro h
  cases h with
  | entry hmem => cases hmem
  | inside hmem _ => cases hmem

theorem below_singleton_iff {name : FileName} {x e : Entry α} {path : List (Option String)} :
    Below [(name, x)] path e ↔ path = [name.text?] ∧ e = x ∨
      ∃ inner rest, x = .directory inner ∧ path = name.text? :: rest ∧ Below inner rest e := by
  constructor
  · intro h
    cases h with
    | entry hmem =>
      cases List.mem_singleton.mp hmem
      exact .inl ⟨rfl, rfl⟩
    | inside hmem hbelow =>
      cases List.mem_singleton.mp hmem
      exact .inr ⟨_, _, rfl, rfl, hbelow⟩
  · rintro (⟨rfl, rfl⟩ | ⟨inner, rest, rfl, rfl, hbelow⟩)
    · exact .entry List.mem_cons_self
    · exact .inside List.mem_cons_self hbelow

theorem below_cons_iff {entries : List (FileName × Entry α)} {s : Option String}
    {rest : List (Option String)} {e : Entry α} :
    Below entries (s :: rest) e ↔ ∃ name x, (name, x) ∈ entries ∧ name.text? = s ∧
      (rest = [] ∧ e = x ∨ ∃ inner, x = .directory inner ∧ Below inner rest e) := by
  constructor
  · intro h
    cases h with
    | entry hmem => exact ⟨_, _, hmem, rfl, .inl ⟨rfl, rfl⟩⟩
    | inside hmem hbelow => exact ⟨_, _, hmem, rfl, .inr ⟨_, rfl, hbelow⟩⟩
  · rintro ⟨name, x, hmem, rfl, ⟨rfl, rfl⟩ | ⟨inner, rfl, hbelow⟩⟩
    · exact .entry hmem
    · exact .inside hmem hbelow

/-- What is below a directory under texts is there under names. -/
theorem Below.isName {entries : List (FileName × Entry α)} {names : List String} {e : Entry α}
    (h : Below entries (names.map some) e) : names ≠ [] ∧ ∀ n ∈ names, IsName n := by
  induction names generalizing entries with
  | nil => nomatch h
  | cons n names ih =>
    obtain ⟨name, x, -, hname, hrest⟩ := below_cons_iff.mp h
    refine ⟨List.cons_ne_nil _ _, List.forall_mem_cons.mpr ⟨FileName.isName_of_text? hname, ?_⟩⟩
    rcases hrest with ⟨hnil, -⟩ | ⟨inner, -, hbelow⟩
    · rw [List.map_eq_nil_iff.mp hnil]
      exact List.forall_mem_nil _
    · exact (ih hbelow).2

/-! ## Looking up a path -/

/-- What the system finds at a path, and whether it is inside of the directory. -/
inductive Found (α : Type) where
  | missing
  | found (entry : Entry α) (inside : Bool)

/-- Looks up the segments of a path.  A last segment that is empty asks for a directory, as any
further segment does. -/
def Entry.locate (elsewhere : Found α) : List String → Entry α → Found α
  | [], e => .found e true
  | _ :: _, .symlink => elsewhere
  | s :: rest, .directory entries =>
    if s = "" ∨ s = "." then locate elsewhere rest (.directory entries)
    else if s = ".." then elsewhere
    else match entries.find? fun e => e.1.text? = some s with
      | none => .missing
      | some e => locate elsewhere rest e.2
  | _ :: _, .file _ | _ :: _, .other => .missing

theorem find?_eq_of_distinct {entries : List (FileName × Entry α)} {name : FileName} {e : Entry α}
    {s : String} (hdistinct : (entries.filterMap fun e => e.1.text?).Nodup)
    (hmem : (name, e) ∈ entries) (hname : name.text? = some s) :
    (entries.find? fun e => e.1.text? = some s) = some (name, e) := by
  induction entries with
  | nil => cases hmem
  | cons x entries ih =>
    rcases List.mem_cons.mp hmem with rfl | hmem
    · simp [hname]
    · have hs : s ∈ entries.filterMap fun e => e.1.text? :=
        List.mem_filterMap.mpr ⟨_, hmem, hname⟩
      cases hx : x.1.text? with
      | none =>
        simp only [List.filterMap_cons, hx] at hdistinct
        simp [hx, ih hdistinct hmem]
      | some t =>
        simp only [List.filterMap_cons, hx, List.nodup_cons] at hdistinct
        have hne : t ≠ s := fun h => hdistinct.1 (h ▸ hs)
        simp [hx, hne, ih hdistinct.2 hmem]

/-- What is below a directory is found under its names. -/
theorem locate_of_below {entries : List (FileName × Entry α)} {names : List String} {e : Entry α}
    {elsewhere : Found α} (hdistinct : (Entry.directory entries).Distinct)
    (h : Below entries (names.map some) e) :
    (Entry.directory entries).locate elsewhere names = .found e true := by
  induction names generalizing entries with
  | nil => nomatch h
  | cons n names ih =>
    obtain ⟨hempty, hdot, hdots, -⟩ := h.isName.2 n List.mem_cons_self
    obtain ⟨hnodup, hinner⟩ : (entries.filterMap fun e => e.1.text?).Nodup ∧
        ∀ e ∈ entries, e.2.Distinct := by
      cases hdistinct with
      | directory hnodup hinner => exact ⟨hnodup, hinner⟩
    rw [Entry.locate, if_neg (not_or.mpr ⟨hempty, hdot⟩), if_neg hdots]
    obtain ⟨name, x, hmem, hname, hrest⟩ := below_cons_iff.mp h
    rw [find?_eq_of_distinct hnodup hmem hname]
    rcases hrest with ⟨hnil, rfl⟩ | ⟨inner, rfl, hbelow⟩
    · rw [List.map_eq_nil_iff.mp hnil]
      cases e <;> rfl
    · exact ih (hinner _ hmem) hbelow

end FileTree
