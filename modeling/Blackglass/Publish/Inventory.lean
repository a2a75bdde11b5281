import Blackglass.Lib.FileTree
import Blackglass.Lib.Outcome
import Mathlib.Data.Finset.Basic

/-!
# The inventory of a runtime directory

`inventory_tree` walks the directory and collects the paths of its files and of its directories.
It gives up on symbolic links, on other entries that are neither, and on names that are not UTF-8;
so an inventory that is complete lists everything that is below the directory (`Walked`).
-/

namespace Blackglass

open FileTree Outcome

def maxRuntimeEntries : Nat := 512

def maxRuntimeDepth : Nat := 8

structure Inventory where
  files : Finset String := ∅
  directories : Finset String := ∅
  entries : Nat := 0

/-- `walk`, with the levels that are left in place of the depth.  `directory` is relative to the
root. -/
def walk (root : String) : Nat → String → List (FileName × Entry ByteArray) → Inventory →
    Except String Inventory
  | 0, _, _, _ => .error "Publish runtime directory nesting exceeds its bound"
  | levels + 1, directory, entries, inventory =>
    entries.foldlM (fun inventory (name, entry) => do
      let count := inventory.entries + 1
      rejectIf (maxRuntimeEntries < count)
        "Publish runtime directory entry count exceeds its bound"
      let path := joinPath directory name.shown
      match entry with
      | .symlink =>
        .error ("Publish runtime contains a symbolic link: " ++ joinPath root path)
      | .directory inner => do
        rejectIf (name.utf8 = false) "Publish runtime directory path is not UTF-8"
        walk root levels path inner
          { inventory with
            entries := count, directories := insert path inventory.directories }
      | .file _ => do
        rejectIf (name.utf8 = false) "Publish runtime asset path is not UTF-8"
        return { inventory with entries := count, files := insert path inventory.files }
      | .other =>
        .error ("Publish runtime contains an unsupported entry: " ++ joinPath root path))
      inventory

def inventoryTree (root : String) (entries : List (FileName × Entry ByteArray)) :
    Except String Inventory :=
  walk root (maxRuntimeDepth + 1) "" entries {}

/-! ## What a walk has seen -/

/-- The entries are files and directories with proper names. -/
def Plain (entries : List (FileName × Entry ByteArray)) : Prop :=
  ∀ path e, Below entries path e →
    ∃ names : List String, path = names.map some ∧ e.node ≠ .symlink ∧ e.node ≠ .other

/-- The paths of the entries that are of a kind, behind the path of their directory. -/
def PathOf (directory : String) (entries : List (FileName × Entry ByteArray))
    (kind : Node ByteArray → Prop) (path : String) : Prop :=
  ∃ names e, Below entries (names.map some) e ∧ kind e.node ∧ path = joinAll directory names

def IsFile : Node ByteArray → Prop
  | .file _ => True
  | _ => False

def IsDirectory : Node ByteArray → Prop
  | .directory => True
  | _ => False

/-- Everything below the directory has been added to the inventory, and nothing else. -/
structure Walked (directory : String) (entries : List (FileName × Entry ByteArray))
    (before after : Inventory) : Prop where
  plain : Plain entries
  files : ∀ path, path ∈ after.files ↔ path ∈ before.files ∨ PathOf directory entries IsFile path
  directories : ∀ path, path ∈ after.directories ↔
    path ∈ before.directories ∨ PathOf directory entries IsDirectory path

variable {root directory : String} {entries : List (FileName × Entry ByteArray)}
  {before middle after : Inventory} {kind : Node ByteArray → Prop} {path : String}

theorem pathOf_append_iff {more : List (FileName × Entry ByteArray)} :
    PathOf directory (entries ++ more) kind path ↔
      PathOf directory entries kind path ∨ PathOf directory more kind path := by
  simp only [PathOf, below_append_iff, or_and_right, exists_or]

theorem not_pathOf_nil : ¬PathOf directory [] kind path := by
  rintro ⟨names, e, hbelow, -⟩
  exact not_below_nil hbelow

/-- The paths of one entry: its own, and those behind it. -/
theorem pathOf_singleton_iff {name : FileName} {x : Entry ByteArray} (hname : name.utf8 = true) :
    PathOf directory [(name, x)] kind path ↔
      kind x.node ∧ path = joinPath directory name.shown ∨
        ∃ inner, x = .directory inner ∧ PathOf (joinPath directory name.shown) inner kind path := by
  have htext : name.text? = some name.shown := if_pos hname
  constructor
  · rintro ⟨names, e, hbelow, hkind, rfl⟩
    rcases below_singleton_iff.mp hbelow with ⟨hpath, rfl⟩ | ⟨inner, rest, rfl, hpath, hinner⟩
    · rw [htext] at hpath
      have hnames : names.map some = [name.shown].map some := hpath
      obtain rfl := List.map_injective_iff.mpr (Option.some_injective _) hnames
      exact .inl ⟨hkind, rfl⟩
    · rw [htext] at hpath
      obtain ⟨n, names, rfl, hn, rfl⟩ := List.map_eq_cons_iff.mp hpath
      obtain rfl := Option.some.inj hn
      exact .inr ⟨inner, rfl, names, e, hinner, hkind, rfl⟩
  · rintro (⟨hkind, rfl⟩ | ⟨inner, rfl, names, e, hbelow, hkind, rfl⟩)
    · refine ⟨[name.shown], x, ?_, hkind, rfl⟩
      exact below_singleton_iff.mpr (.inl ⟨by rw [htext]; rfl, rfl⟩)
    · refine ⟨name.shown :: names, e, ?_, hkind, rfl⟩
      exact below_singleton_iff.mpr (.inr ⟨inner, _, rfl, by rw [htext]; rfl, hbelow⟩)

theorem Walked.nil : Walked directory [] before before where
  plain _ _ h := absurd h not_below_nil
  files _ := ⟨.inl, fun h => h.resolve_right not_pathOf_nil⟩
  directories _ := ⟨.inl, fun h => h.resolve_right not_pathOf_nil⟩

theorem Walked.append {more : List (FileName × Entry ByteArray)}
    (h : Walked directory entries before middle) (h' : Walked directory more middle after) :
    Walked directory (entries ++ more) before after where
  plain path e hbelow := (below_append_iff.mp hbelow).elim (h.plain path e) (h'.plain path e)
  files path := by rw [h'.files, h.files, pathOf_append_iff, or_assoc]
  directories path := by rw [h'.directories, h.directories, pathOf_append_iff, or_assoc]

theorem Walked.file {name : FileName} {bytes : ByteArray} (hname : name.utf8 = true)
    (hfiles : after.files = insert (joinPath directory name.shown) before.files)
    (hdirectories : after.directories = before.directories) :
    Walked directory [(name, .file bytes)] before after where
  plain path e hbelow := by
    rcases below_singleton_iff.mp hbelow with ⟨rfl, rfl⟩ | ⟨_, _, hx, -⟩
    · exact ⟨[name.shown], congrArg ([·]) (if_pos hname), nofun, nofun⟩
    · cases hx
  files path := by
    rw [hfiles, Finset.mem_insert, pathOf_singleton_iff hname]
    constructor
    · rintro (rfl | h)
      · exact .inr (.inl ⟨trivial, rfl⟩)
      · exact .inl h
    · rintro (h | ⟨-, rfl⟩ | ⟨_, hx, -⟩)
      · exact .inr h
      · exact .inl rfl
      · cases hx
  directories path := by
    rw [hdirectories, pathOf_singleton_iff hname]
    constructor
    · exact .inl
    · rintro (h | ⟨hkind, -⟩ | ⟨_, hx, -⟩)
      · exact h
      · exact hkind.elim
      · cases hx

theorem Walked.enter {name : FileName} {inner : List (FileName × Entry ByteArray)}
    (hname : name.utf8 = true) (h : Walked (joinPath directory name.shown) inner middle after)
    (hfiles : middle.files = before.files)
    (hdirectories :
      middle.directories = insert (joinPath directory name.shown) before.directories) :
    Walked directory [(name, .directory inner)] before after where
  plain path e hbelow := by
    rcases below_singleton_iff.mp hbelow with ⟨rfl, rfl⟩ | ⟨_, rest, hx, rfl, hinner⟩
    · exact ⟨[name.shown], congrArg ([·]) (if_pos hname), nofun, nofun⟩
    · cases hx
      obtain ⟨names, rfl, hnode⟩ := h.plain rest e hinner
      exact ⟨name.shown :: names, congrArg (· :: _) (if_pos hname), hnode⟩
  files path := by
    rw [h.files, hfiles, pathOf_singleton_iff hname]
    constructor
    · exact Or.imp_right fun hpath => .inr ⟨inner, rfl, hpath⟩
    · rintro (hmem | ⟨hkind, -⟩ | ⟨_, hx, hpath⟩)
      · exact .inl hmem
      · exact hkind.elim
      · cases hx
        exact .inr hpath
  directories path := by
    rw [h.directories, hdirectories, Finset.mem_insert, pathOf_singleton_iff hname]
    constructor
    · rintro ((rfl | hmem) | hpath)
      · exact .inr (.inl ⟨trivial, rfl⟩)
      · exact .inl hmem
      · exact .inr (.inr ⟨inner, rfl, hpath⟩)
    · rintro (hmem | ⟨-, rfl⟩ | ⟨_, hx, hpath⟩)
      · exact .inl (.inr hmem)
      · exact .inl (.inl rfl)
      · cases hx
        exact .inr hpath

/-- A walk that does not fail has seen everything.  The induction is on the levels, and in each of
them on the entries that have been visited. -/
theorem walk_ok {levels : Nat} (h : walk root levels directory entries before = .ok after) :
    Walked directory entries before after := by
  induction levels generalizing directory entries before after with
  | zero => cases h
  | succ levels ih =>
    rw [walk] at h
    refine foldlM_induction (P := fun visited => Walked directory visited before) ?_ .nil h
    rintro visited ⟨name, entry⟩ rest middle next - hvisited hstep
    refine hvisited.append ?_
    simp only [bind_eq_ok, rejectIf_eq_ok, exists_unit] at hstep
    obtain ⟨-, hstep⟩ := hstep
    cases entry with
    | file bytes =>
      simp only [bind_eq_ok, rejectIf_eq_ok, exists_unit, pure_eq_ok,
        Bool.not_eq_false] at hstep
      obtain ⟨hname, rfl⟩ := hstep
      exact .file hname rfl rfl
    | directory inner =>
      simp only [bind_eq_ok, rejectIf_eq_ok, exists_unit, Bool.not_eq_false] at hstep
      obtain ⟨hname, hwalk⟩ := hstep
      exact .enter hname (ih hwalk) rfl rfl
    | symlink => cases hstep
    | other => cases hstep

/-- A complete inventory. -/
theorem inventoryTree_ok {inventory : Inventory} (h : inventoryTree root entries = .ok inventory) :
    Plain entries ∧ (∀ path, path ∈ inventory.files ↔ PathOf "" entries IsFile path) ∧
      ∀ path, path ∈ inventory.directories ↔ PathOf "" entries IsDirectory path := by
  have hwalked := walk_ok h
  refine ⟨hwalked.plain, fun path => ?_, fun path => ?_⟩
  · rw [hwalked.files, or_iff_right (Finset.notMem_empty _)]
  · rw [hwalked.directories, or_iff_right (Finset.notMem_empty _)]

end Blackglass
