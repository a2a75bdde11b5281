import Blackglass.Publish.CanonicalJson
import Blackglass.Publish.Inventory
import Mathlib.Data.List.AList

/-!
# Loading a Publish runtime

`VerifiedPublishRuntime::load` reads a receipt, checks the manifest in it against the digests that
were configured, reads every asset of the manifest into memory and then takes the inventory of the
directory.  A path text of the manifest need not be canonical to name a file; but the inventory has
canonical texts only, and both have to be equal.

The directory does not change while it is read.  What a path finds that goes through a symbolic
link, the parser of `serde_json`, SHA-256 and the quoted form of a text in a message are parameters.
-/

namespace Blackglass

open FileTree Json Outcome Text

def receiptFile : String := "blackglass-publish-runtime.json"

def maxRuntimeAssets : Nat := 128

def maxRuntimeBytes : Nat := 32 * 1024 * 1024

def maxAssetBytes : Nat := 8 * 1024 * 1024

def maxReceiptBytes : Nat := 256 * 1024

/-- What `load` calls and this development does not define. -/
structure PublishHost where
  sha256 : ByteArray → String
  fromSlice : ByteArray → Option SerdeValue
  debug : String → String
  elsewhere : String → Found ByteArray

/-- What is at the path that is given as the root. -/
structure RuntimeRoot where
  given : String
  resolved : String
  entry : Option (Entry ByteArray)
  distinct : ∀ e, entry = some e → e.Distinct

structure VerifiedPublishRuntime where
  runtimeSha256 : String
  sourceRuntimeSha256 : String
  assets : AList fun _ : String => ByteArray
  totalBytes : Nat

/-! ## The checks -/

def requireSha256 (value label : String) : Except String Unit :=
  rejectIf (value.utf8ByteSize ≠ 64 ∨ value.toList.all isLowerHexDigit = false)
    (label ++ " must be 64 lowercase hexadecimal characters")

def canonicalDirectory (root : RuntimeRoot) (label : String) :
    Except String (List (FileName × Entry ByteArray)) :=
  match root.entry with
  | none => .error ("inspect " ++ label ++ ": " ++ root.given)
  | some (.directory entries) => .ok entries
  | some _ => .error (label ++ " must be a real directory: " ++ root.given)

/-- A path text below the root as the system finds it. -/
def PublishHost.locate (host : PublishHost) (entries : List (FileName × Entry ByteArray))
    (path : String) : Found ByteArray :=
  (Entry.directory entries).locate (host.elsewhere path) (segments path)

def readRegularFile (host : PublishHost) (root : RuntimeRoot)
    (entries : List (FileName × Entry ByteArray)) (path label : String) (maximumBytes : Nat) :
    Except String ByteArray :=
  match host.locate entries path with
  | .missing => .error ("inspect " ++ label ++ ": " ++ joinPath root.resolved path)
  | .found (.file bytes) inside => do
    rejectIf (maximumBytes < bytes.size)
      (label ++ " exceeds its byte bound: " ++ joinPath root.resolved path)
    rejectIf (inside = false)
      (label ++ " escapes the Publish runtime root: " ++ joinPath root.resolved path)
    return bytes
  | .found _ _ => .error (label ++ " must be a regular file: " ++ joinPath root.resolved path)

def validateRelativeAssetPath (host : PublishHost) (path : String) : Except String Unit := do
  rejectIf (path = "" ∨ '\\' ∈ path.toList ∨ Char.ofNat 0 ∈ path.toList)
    ("Publish runtime asset path is unsafe: " ++ host.debug path)
  rejectIf (isAbsolute path = true ∨ (components path).any (·.name?.isNone) = true)
    ("Publish runtime asset path is not canonical: " ++ host.debug path)

/-- The part of `load` that checks a receipt: the source digest and the manifest in it. -/
def verifyReceipt (host : PublishHost) (receipt : Value)
    (expectedRuntimeSha256 expectedSourceRuntimeSha256 : String) :
    Except String (String × Value) := do
  let _ ← orReject receipt.asObject "Publish runtime receipt must be an object"
  rejectIf ((receipt.get "schemaVersion").bind Value.asU64 ≠ some 1 ∨
      (receipt.get "generatedBy").bind Value.asStr ≠ some "tools/adapt-publish-runtime.ts")
    "Publish runtime receipt has an unsupported schema or generator"
  let sourceRuntimeSha256 ← orReject ((receipt.get "sourceRuntimeSha256").bind Value.asStr)
    "Publish runtime receipt has no sourceRuntimeSha256"
  requireSha256 sourceRuntimeSha256 "source Publish runtime SHA-256"
  rejectIf (sourceRuntimeSha256 ≠ expectedSourceRuntimeSha256)
    "Publish runtime receipt does not match the configured reviewed source identity"
  let outputRuntimeSha256 ← orReject ((receipt.get "outputRuntimeSha256").bind Value.asStr)
    "Publish runtime receipt has no outputRuntimeSha256"
  requireSha256 outputRuntimeSha256 "output Publish runtime SHA-256"
  rejectIf (outputRuntimeSha256 ≠ expectedRuntimeSha256)
    "Publish runtime does not match the configured source-bound identity"
  let manifest ← orReject (receipt.get "outputManifest")
    "Publish runtime receipt has no outputManifest"
  let _ ← orReject manifest.asObject "Publish runtime outputManifest must be an object"
  rejectIf ((manifest.get "schemaVersion").bind Value.asU64 ≠ some 1 ∨
      (manifest.get "generatedBy").bind Value.asStr ≠ some "tools/inspect-publish-runtime.ts" ∨
      (manifest.get "runtimeSha256").bind Value.asStr ≠ some outputRuntimeSha256)
    "Publish runtime outputManifest has inconsistent identity metadata"
  rejectIf (host.sha256 (canonicalJson (unsignedManifest manifest)).toUTF8 ≠ outputRuntimeSha256)
    "Publish runtime manifest canonical identity is invalid"
  return (sourceRuntimeSha256, manifest)

/-! ## The assets -/

/-- What `load` has collected of the assets that it has read. -/
structure Loading where
  assets : AList fun _ : String => ByteArray := ∅
  expectedFiles : Finset String := {receiptFile}
  expectedDirectories : Finset String := ∅
  totalBytes : Nat := 0

/-- The directories that the components of a path go through, each behind the one before.  All
components of a validated path are names. -/
def pushParents (parents : List Component) (start : String × Finset String) :
    String × Finset String :=
  parents.foldl (fun (parent, directories) component =>
    match component.name? with
    | some name => (joinPath parent name, insert (joinPath parent name) directories)
    | none => (parent, directories)) start

def loadAsset (host : PublishHost) (root : RuntimeRoot)
    (entries : List (FileName × Entry ByteArray)) (loading : Loading) (asset : Value) :
    Except String Loading := do
  let _ ← orReject asset.asObject "Publish runtime asset identity must be an object"
  let path ← orReject (assetIdentity asset).path "Publish runtime asset has no path"
  validateRelativeAssetPath host path
  rejectIf (path ∈ loading.expectedFiles) ("Publish runtime has a duplicate asset path: " ++ path)
  let expectedBytes ← orReject (assetIdentity asset).bytes
    "Publish runtime asset has an invalid byte length"
  rejectIf (maxAssetBytes < expectedBytes)
    ("Publish runtime asset exceeds the per-file bound: " ++ path)
  let expectedSha256 ← orReject (assetIdentity asset).sha256 "Publish runtime asset has no SHA-256"
  requireSha256 expectedSha256 "Publish runtime asset SHA-256"
  let bytes ← readRegularFile host root entries path "Publish runtime asset" maxAssetBytes
  rejectIf (bytes.size ≠ expectedBytes ∨ host.sha256 bytes ≠ expectedSha256)
    ("Publish runtime asset identity changed: " ++ path)
  let totalBytes := loading.totalBytes + bytes.size
  rejectIf (18446744073709551615 < totalBytes) "Publish runtime total byte count overflow"
  rejectIf (maxRuntimeBytes < totalBytes) "Publish runtime exceeds the total byte bound"
  return {
    assets := loading.assets.insert path bytes
    expectedFiles := insert path loading.expectedFiles
    expectedDirectories :=
      (pushParents (components path).dropLast ("", loading.expectedDirectories)).2
    totalBytes }

namespace VerifiedPublishRuntime

def load (host : PublishHost) (root : RuntimeRoot)
    (expectedRuntimeSha256 expectedSourceRuntimeSha256 : String) :
    Except String VerifiedPublishRuntime := do
  requireSha256 expectedRuntimeSha256 "expected Publish runtime SHA-256"
  requireSha256 expectedSourceRuntimeSha256 "expected source Publish runtime SHA-256"
  let entries ← canonicalDirectory root "Publish runtime root"
  let bytes ← readRegularFile host root entries receiptFile "Publish runtime receipt"
    maxReceiptBytes
  let receipt ← orReject (host.fromSlice bytes) "parse Publish runtime receipt"
  let (sourceRuntimeSha256, manifest) ← verifyReceipt host receipt.value expectedRuntimeSha256
    expectedSourceRuntimeSha256
  let assetValues ← orReject ((manifest.get "assets").bind Value.asArray)
    "Publish runtime outputManifest has no asset inventory"
  rejectIf (assetValues.isEmpty = true ∨ maxRuntimeAssets < assetValues.length)
    "Publish runtime asset count is outside the supported bound"
  let loading ← assetValues.foldlM (loadAsset host root entries) {}
  let inventory ← inventoryTree root.resolved entries
  rejectIf (inventory.files ≠ loading.expectedFiles ∨
      inventory.directories ≠ loading.expectedDirectories)
    "Publish runtime directory contains unbound or missing files or directories"
  return {
    runtimeSha256 := expectedRuntimeSha256
    sourceRuntimeSha256
    assets := loading.assets
    totalBytes := loading.totalBytes }

end VerifiedPublishRuntime

/-! ## What one asset adds -/

/-- An asset in memory. -/
structure LoadedAsset where
  path : String
  bytes : ByteArray

/-- How a manifest describes an asset. -/
def LoadedAsset.identity (host : PublishHost) (a : LoadedAsset) : AssetIdentity where
  path := some a.path
  bytes := some a.bytes.size
  sha256 := some (host.sha256 a.bytes)

/-- A file that was read is where its path is found. -/
theorem readRegularFile_ok {host : PublishHost} {root : RuntimeRoot}
    {entries : List (FileName × Entry ByteArray)} {path label : String} {maximumBytes : Nat}
    {bytes : ByteArray}
    (h : readRegularFile host root entries path label maximumBytes = .ok bytes) :
    host.locate entries path = .found (.file bytes) true := by
  rw [readRegularFile] at h
  split at h
  · cases h
  · next content inside hlocate =>
      simp only [bind_eq_ok, rejectIf_eq_ok, exists_unit, pure_eq_ok, Bool.not_eq_false] at h
      obtain ⟨-, rfl, rfl⟩ := h
      exact hlocate
  · cases h

theorem mem_pushParents {names : List String} {base : String} {directories : Finset String}
    {path : String} :
    path ∈ (pushParents (names.map .normal) (base, directories)).2 ↔
      path ∈ directories ∨
        ∃ parent, parent ≠ [] ∧ parent <+: names ∧ path = joinAll base parent := by
  induction names generalizing base directories with
  | nil =>
    refine ⟨.inl, ?_⟩
    rintro (h | ⟨parent, hne, hparent, -⟩)
    · exact h
    · exact absurd (List.prefix_nil.mp hparent) hne
  | cons n names ih =>
    have hcons : pushParents ((n :: names).map .normal) (base, directories) =
        pushParents (names.map .normal)
          (joinPath base n, insert (joinPath base n) directories) := rfl
    rw [hcons, ih, Finset.mem_insert]
    constructor
    · rintro ((rfl | h) | ⟨parent, -, hparent, rfl⟩)
      · exact .inr ⟨[n], List.cons_ne_nil _ _, (List.prefix_cons_inj n).mpr List.nil_prefix, rfl⟩
      · exact .inl h
      · exact .inr ⟨n :: parent, List.cons_ne_nil _ _, (List.prefix_cons_inj n).mpr hparent, rfl⟩
    · rintro (h | ⟨parent, hne, hparent, rfl⟩)
      · exact .inl (.inr h)
      · cases parent with
        | nil => exact absurd rfl hne
        | cons m parent =>
          obtain ⟨rfl, htail⟩ := List.cons_prefix_cons.mp hparent
          cases parent with
          | nil => exact .inl (.inl rfl)
          | cons k parent => exact .inr ⟨k :: parent, List.cons_ne_nil _ _, htail, rfl⟩

/-- The components of a validated path are names. -/
theorem validateRelativeAssetPath_ok {host : PublishHost} {path : String}
    (h : validateRelativeAssetPath host path = .ok ()) :
    ∃ names : List String, components path = names.map .normal := by
  simp only [validateRelativeAssetPath, bind_eq_ok, rejectIf_eq_ok, exists_unit, not_or,
    Bool.not_eq_true, List.any_eq_false] at h
  have hall := h.2.2
  generalize components path = cs at hall
  induction cs with
  | nil => exact ⟨[], rfl⟩
  | cons c cs ih =>
    obtain ⟨hc, hcs⟩ := List.forall_mem_cons.mp hall
    obtain ⟨names, rfl⟩ := ih hcs
    cases c with
    | normal name => exact ⟨name :: names, rfl⟩
    | rootDir | curDir | parentDir => cases hc

/-- What the loop has when it has read some of the assets. -/
structure Loaded (host : PublishHost) (entries : List (FileName × Entry ByteArray))
    (values : List Value) (listed : List LoadedAsset) (loading : Loading) : Prop where
  identities : values.map assetIdentity = listed.map (LoadedAsset.identity host)
  located : ∀ a ∈ listed, host.locate entries a.path = .found (.file a.bytes) true
  files : ∀ path, path ∈ loading.expectedFiles ↔
    path = receiptFile ∨ path ∈ listed.map LoadedAsset.path
  directories : ∀ path, path ∈ loading.expectedDirectories ↔
    ∃ a ∈ listed, ∃ names : List String, components a.path = names.map .normal ∧
      ∃ parent, parent ≠ [] ∧ parent <+: names.dropLast ∧ path = joinAll "" parent
  nodup : (receiptFile :: listed.map LoadedAsset.path).Nodup
  lookup : ∀ path, loading.assets.lookup path =
    (listed.find? fun a => a.path = path).map LoadedAsset.bytes
  total : loading.totalBytes = (listed.map fun a => a.bytes.size).sum
  bounded : loading.totalBytes ≤ maxRuntimeBytes

section Loop

variable {host : PublishHost} {root : RuntimeRoot} {entries : List (FileName × Entry ByteArray)}
  {values : List Value} {listed : List LoadedAsset} {loading next : Loading} {asset : Value}

theorem Loaded.start : Loaded host entries [] [] {} where
  identities := rfl
  located _ h := absurd h List.not_mem_nil
  files path := by simp
  directories path := by simp
  nodup := List.nodup_singleton _
  lookup path := AList.lookup_empty path
  total := rfl
  bounded := Nat.zero_le _

/-- What an asset that is loaded went through. -/
theorem loadAsset_ok (h : loadAsset host root entries loading asset = .ok next) :
    ∃ a : LoadedAsset, assetIdentity asset = a.identity host ∧
      (∃ names : List String, components a.path = names.map .normal) ∧
      a.path ∉ loading.expectedFiles ∧
      host.locate entries a.path = .found (.file a.bytes) true ∧
      loading.totalBytes + a.bytes.size ≤ maxRuntimeBytes ∧
      next = {
        assets := loading.assets.insert a.path a.bytes
        expectedFiles := insert a.path loading.expectedFiles
        expectedDirectories :=
          (pushParents (components a.path).dropLast ("", loading.expectedDirectories)).2
        totalBytes := loading.totalBytes + a.bytes.size } := by
  simp only [loadAsset, bind_eq_ok, rejectIf_eq_ok, orReject_eq_ok, exists_unit, pure_eq_ok,
    not_or, not_not, not_lt] at h
  obtain ⟨members, -, path, hpath, hvalid, hnew, size, hsize, -, digest, hdigest, -, bytes, hread,
    ⟨rfl, rfl⟩, -, hbound, rfl⟩ := h
  refine ⟨⟨path, bytes⟩, ?_, validateRelativeAssetPath_ok hvalid, hnew, readRegularFile_ok hread,
    hbound, rfl⟩
  rw [LoadedAsset.identity, ← hpath, ← hsize, ← hdigest]

/-- One more asset. -/
theorem Loaded.step (hloaded : Loaded host entries values listed loading)
    (h : loadAsset host root entries loading asset = .ok next) :
    ∃ a, Loaded host entries (values ++ [asset]) (listed ++ [a]) next := by
  obtain ⟨a, hidentity, ⟨names, hnames⟩, hnew, hlocate, hbound, rfl⟩ := loadAsset_ok h
  rw [hloaded.files, not_or] at hnew
  refine ⟨a, ?_, ?_, ?_, ?_, ?_, ?_, ?_, hbound⟩
  · rw [List.map_append, List.map_append, hloaded.identities, List.map_singleton,
      List.map_singleton, hidentity]
  · intro b hb
    rcases List.mem_append.mp hb with hb | hb
    · exact hloaded.located b hb
    · rw [List.mem_singleton.mp hb]
      exact hlocate
  · intro path
    rw [Finset.mem_insert, hloaded.files, List.map_append, List.mem_append, List.map_singleton,
      List.mem_singleton]
    tauto
  · intro path
    have hparents : (components a.path).dropLast = names.dropLast.map .normal := by
      rw [hnames, List.map_dropLast]
    rw [hparents, mem_pushParents, hloaded.directories]
    simp only [List.mem_append, List.mem_singleton, or_and_right, exists_or, exists_eq_left]
    refine or_congr_right ⟨fun hparent => ⟨names, hnames, hparent⟩, ?_⟩
    rintro ⟨names', hnames', hparent⟩
    have hinj : Function.Injective Component.normal := fun _ _ => Component.normal.inj
    obtain rfl := List.map_injective_iff.mpr hinj (hnames.symm.trans hnames')
    exact hparent
  · rw [List.map_append, ← List.cons_append]
    refine List.nodup_append.mpr ⟨hloaded.nodup, List.nodup_singleton _, ?_⟩
    rintro x hx y hy rfl
    rw [List.map_singleton, List.mem_singleton] at hy
    subst hy
    exact (List.mem_cons.mp hx).elim hnew.1 hnew.2
  · intro path
    rw [List.find?_append]
    by_cases hpath : a.path = path
    · subst hpath
      have hnone : (listed.find? fun b => b.path = a.path) = none := by
        refine List.find?_eq_none.mpr fun b hb hsame => hnew.2 ?_
        exact of_decide_eq_true hsame ▸ List.mem_map_of_mem hb
      rw [AList.lookup_insert, hnone]
      simp
    · rw [AList.lookup_insert_ne (Ne.symm hpath), hloaded.lookup]
      simp [hpath]
  · rw [List.map_append, List.sum_append, ← hloaded.total, List.map_singleton, List.sum_singleton]

theorem loadAssets_ok (h : values.foldlM (loadAsset host root entries) {} = .ok loading) :
    ∃ listed, Loaded host entries values listed loading := by
  refine foldlM_induction (P := fun done s => ∃ listed, Loaded host entries done listed s)
    ?_ ⟨[], .start⟩ h
  rintro done asset rest s s' - ⟨listed, hloaded⟩ hstep
  obtain ⟨a, hloaded'⟩ := hloaded.step hstep
  exact ⟨listed ++ [a], hloaded'⟩

end Loop

/-! ## The tree that was signed -/

/-- The receipt, the assets, and the directories that the assets are in. -/
def signedContents (receipt : ByteArray) (listed : List LoadedAsset) :
    Set (List (Option String) × Node ByteArray) :=
  fun x => x = ([some receiptFile], .file receipt) ∨
    (∃ a ∈ listed, x = ((segments a.path).map some, .file a.bytes)) ∨
    ∃ a ∈ listed, ∃ parent, parent ≠ [] ∧ parent <+: (segments a.path).dropLast ∧
      x = (parent.map some, .directory)

/-- A runtime that is just what the manifest of its receipt says. -/
structure Exact (host : PublishHost) (entries : List (FileName × Entry ByteArray))
    (expectedRuntimeSha256 : String) (receipt : ByteArray) (listed : List LoadedAsset)
    (runtime : VerifiedPublishRuntime) : Prop where
  signed : ∃ value manifest, host.fromSlice receipt = some value ∧
    value.value.get "outputManifest" = some manifest ∧
    host.sha256 (canonicalJson (unsignedManifest manifest)).toUTF8 = expectedRuntimeSha256 ∧
    manifestAssets manifest = some (listed.map (LoadedAsset.identity host))
  tree : contents entries = signedContents receipt listed
  assets : ∀ path, runtime.assets.lookup path =
    (listed.find? fun a => a.path = path).map LoadedAsset.bytes
  canonical : ∀ a ∈ listed, IsCanonical a.path
  distinct : (listed.map fun a => segments a.path).Nodup
  total : runtime.totalBytes = (listed.map fun a => a.bytes.size).sum
  bounded : runtime.totalBytes ≤ maxRuntimeBytes

/-- The inventory is the one that was expected, and the files are those that were read. -/
structure Matched (host : PublishHost) (entries : List (FileName × Entry ByteArray))
    (receipt : ByteArray) (listed : List LoadedAsset) : Prop where
  distinct : (Entry.directory entries).Distinct
  plain : Plain entries
  files : ∀ path, PathOf "" entries IsFile path ↔
    path = receiptFile ∨ path ∈ listed.map LoadedAsset.path
  directories : ∀ path, PathOf "" entries IsDirectory path ↔
    ∃ a ∈ listed, ∃ names : List String, components a.path = names.map .normal ∧
      ∃ parent, parent ≠ [] ∧ parent <+: names.dropLast ∧ path = joinAll "" parent
  receiptLocated : host.locate entries receiptFile = .found (.file receipt) true
  located : ∀ a ∈ listed, host.locate entries a.path = .found (.file a.bytes) true

namespace Matched

variable {host : PublishHost} {entries : List (FileName × Entry ByteArray)} {receipt : ByteArray}
  {listed : List LoadedAsset} {names : List String} {a : LoadedAsset}

/-- A path that is in the inventory of files names the file of that name. -/
theorem below_of_pathOf (h : Matched host entries receipt listed) {path : String}
    {bytes : ByteArray} (hpath : PathOf "" entries IsFile path)
    (hlocate : host.locate entries path = .found (.file bytes) true) :
    Below entries ((segments path).map some) (.file bytes) ∧ segments path ≠ [] ∧
      (∀ s ∈ segments path, IsName s) ∧ joinAll "" (segments path) = path := by
  obtain ⟨names, e, hbelow, -, rfl⟩ := hpath
  obtain ⟨hne, hnames⟩ := hbelow.isName
  rw [PublishHost.locate, segments_joinAll hne hnames, locate_of_below h.distinct hbelow] at hlocate
  obtain rfl : e = .file bytes := by
    cases hlocate
    rfl
  rw [segments_joinAll hne hnames]
  exact ⟨hbelow, hne, hnames, rfl⟩

theorem below_asset (h : Matched host entries receipt listed) (ha : a ∈ listed) :
    Below entries ((segments a.path).map some) (.file a.bytes) ∧ segments a.path ≠ [] ∧
      (∀ s ∈ segments a.path, IsName s) ∧ joinAll "" (segments a.path) = a.path :=
  h.below_of_pathOf ((h.files _).mpr (.inr (List.mem_map_of_mem ha))) (h.located a ha)

theorem isCanonical (h : Matched host entries receipt listed) (ha : a ∈ listed) :
    IsCanonical a.path := by
  obtain ⟨-, hne, hnames, hpath⟩ := h.below_asset ha
  exact hpath ▸ isCanonical_joinAll hne hnames

theorem segments_receiptFile : segments receiptFile = [receiptFile] := by
  have hname : ∀ n ∈ [receiptFile], IsName n := by
    rw [List.forall_mem_singleton]
    decide
  have hjoin : joinAll "" [receiptFile] = receiptFile := joinPath_empty receiptFile
  have hsegments := segments_joinAll (List.cons_ne_nil _ _) hname
  rwa [hjoin] at hsegments

/-- The parents of an asset are prefixes of its path, as names. -/
theorem parent_of_names (h : Matched host entries receipt listed) (ha : a ∈ listed)
    (hnames : components a.path = names.map .normal) :
    names = segments a.path ∧ ∀ parent, parent <+: names.dropLast → ∀ s ∈ parent, IsName s := by
  have hinj : Function.Injective Component.normal := fun _ _ => Component.normal.inj
  rw [components_of_isCanonical (h.isCanonical ha)] at hnames
  obtain rfl := List.map_injective_iff.mpr hinj hnames
  refine ⟨rfl, fun parent hparent s hs => ?_⟩
  exact (h.below_asset ha).2.2.1 s (List.dropLast_subset _ (hparent.subset hs))

theorem contents_subset (h : Matched host entries receipt listed) {path : List (Option String)}
    {e : Entry ByteArray} (hbelow : Below entries path e) :
    signedContents receipt listed (path, e.node) := by
  obtain ⟨names, rfl, hsymlink, hother⟩ := h.plain path e hbelow
  obtain ⟨hne, hnames⟩ := hbelow.isName
  cases e with
  | file bytes =>
    have hlocate : host.locate entries (joinAll "" names) = .found (.file bytes) true := by
      rw [PublishHost.locate, segments_joinAll hne hnames, locate_of_below h.distinct hbelow]
    rcases (h.files _).mp ⟨names, _, hbelow, trivial, rfl⟩ with hreceipt | hasset
    · have hsegments := segments_joinAll hne hnames
      rw [hreceipt, segments_receiptFile] at hsegments
      rw [hreceipt, h.receiptLocated] at hlocate
      cases hlocate
      exact .inl (hsegments ▸ rfl)
    · obtain ⟨a, ha, hpath⟩ := List.mem_map.mp hasset
      rw [← hpath, h.located a ha] at hlocate
      cases hlocate
      refine .inr (.inl ⟨a, ha, ?_⟩)
      rw [hpath, segments_joinAll hne hnames]
      rfl
  | directory inner =>
    obtain ⟨a, ha, names', hnames', parent, hparent, hprefix, hpath⟩ :=
      (h.directories _).mp ⟨names, _, hbelow, trivial, rfl⟩
    obtain ⟨rfl, hparents⟩ := h.parent_of_names ha hnames'
    obtain rfl := joinAll_inj hne hparent hnames (hparents parent hprefix) hpath
    exact .inr (.inr ⟨a, ha, names, hparent, hprefix, rfl⟩)
  | symlink => exact absurd rfl hsymlink
  | other => exact absurd rfl hother

theorem subset_contents (h : Matched host entries receipt listed)
    {x : List (Option String) × Node ByteArray} (hx : signedContents receipt listed x) :
    contents entries x := by
  rcases hx with rfl | ⟨a, ha, rfl⟩ | ⟨a, ha, parent, hne, hprefix, rfl⟩
  · have hbelow := (h.below_of_pathOf ((h.files _).mpr (.inl rfl)) h.receiptLocated).1
    rw [segments_receiptFile] at hbelow
    exact ⟨_, hbelow, rfl⟩
  · exact ⟨_, (h.below_asset ha).1, rfl⟩
  · have hcomponents := components_of_isCanonical (h.isCanonical ha)
    obtain ⟨names, e, hbelow, hkind, hpath⟩ :=
      (h.directories _).mpr ⟨a, ha, _, hcomponents, parent, hne, hprefix, rfl⟩
    have hparents := (h.parent_of_names ha hcomponents).2 parent hprefix
    obtain ⟨hne', hnames⟩ := hbelow.isName
    obtain rfl := joinAll_inj hne hne' hparents hnames hpath
    refine ⟨e, hbelow, ?_⟩
    cases e with
    | directory _ => rfl
    | file _ | symlink | other => exact hkind.elim

theorem contents_eq (h : Matched host entries receipt listed) :
    contents entries = signedContents receipt listed := by
  ext x
  constructor
  · rintro ⟨e, hbelow, hnode⟩
    obtain ⟨path, node⟩ := x
    obtain rfl : e.node = node := hnode
    exact h.contents_subset hbelow
  · exact h.subset_contents

/-- Assets with distinct paths are distinct files. -/
theorem nodup_segments (h : Matched host entries receipt listed)
    (hnodup : (listed.map LoadedAsset.path).Nodup) :
    (listed.map fun a => segments a.path).Nodup := by
  refine (List.nodup_map_iff_inj_on hnodup.of_map).mpr fun a ha b hb hsame => ?_
  have hpath : a.path = b.path := by
    rw [← (h.below_asset ha).2.2.2, hsame, (h.below_asset hb).2.2.2]
  exact List.inj_on_of_nodup_map hnodup ha hb hpath

end Matched

/-! ## The theorem -/

section Load

variable {host : PublishHost} {root : RuntimeRoot} {expected expectedSource : String}
  {runtime : VerifiedPublishRuntime}

theorem verifyReceipt_ok {receipt manifest : Value} {source : String}
    (h : verifyReceipt host receipt expected expectedSource = .ok (source, manifest)) :
    receipt.get "outputManifest" = some manifest ∧
      host.sha256 (canonicalJson (unsignedManifest manifest)).toUTF8 = expected := by
  simp only [verifyReceipt, bind_eq_ok, rejectIf_eq_ok, orReject_eq_ok, exists_unit, pure_eq_ok,
    not_not, Prod.mk.injEq] at h
  obtain ⟨_, -, -, _, -, -, -, _, -, -, rfl, _, hmanifest, _, -, -, hdigest, -, rfl⟩ := h
  exact ⟨hmanifest, hdigest⟩

theorem canonicalDirectory_ok {label : String} {entries : List (FileName × Entry ByteArray)}
    (h : canonicalDirectory root label = .ok entries) :
    root.entry = some (.directory entries) := by
  rw [canonicalDirectory] at h
  split at h
  · cases h
  · next entries' hentry =>
      cases h
      exact hentry
  · cases h

end Load

variable (host : PublishHost) (root : RuntimeRoot) in
/-- A runtime that was loaded from a directory that does not change is what was signed: there is
nothing below the root but the receipt, the assets and their parents, and the assets in memory are
those of the manifest. -/
theorem VerifiedPublishRuntime.load_exact {expected expectedSource : String}
    {runtime : VerifiedPublishRuntime}
    (h : VerifiedPublishRuntime.load host root expected expectedSource = .ok runtime) :
    ∃ entries receipt listed, root.entry = some (.directory entries) ∧
      Exact host entries expected receipt listed runtime := by
  simp only [load, bind_eq_ok, rejectIf_eq_ok, orReject_eq_ok, exists_unit, pure_eq_ok, not_or,
    not_not] at h
  obtain ⟨-, -, entries, hentries, receipt, hreceipt, value, hvalue, ⟨source, manifest⟩, hverify,
    values, hvalues, -, loading, hloading, inventory, hinventory, ⟨hfiles, hdirectories⟩, rfl⟩ := h
  have hroot := canonicalDirectory_ok hentries
  obtain ⟨hmanifest, hdigest⟩ := verifyReceipt_ok hverify
  obtain ⟨listed, hloaded⟩ := loadAssets_ok hloading
  obtain ⟨hplain, hactual, hactual'⟩ := inventoryTree_ok hinventory
  have hmatched : Matched host entries receipt listed := {
    distinct := root.distinct _ hroot
    plain := hplain
    files := fun path => by rw [← hactual, hfiles, hloaded.files]
    directories := fun path => by rw [← hactual', hdirectories, hloaded.directories]
    receiptLocated := readRegularFile_ok hreceipt
    located := hloaded.located }
  refine ⟨entries, receipt, listed, hroot, ?_, hmatched.contents_eq, hloaded.lookup,
    fun _ => hmatched.isCanonical, hmatched.nodup_segments (List.nodup_cons.mp hloaded.nodup).2,
    hloaded.total, hloaded.bounded⟩
  refine ⟨value, manifest, hvalue, hmanifest, hdigest, ?_⟩
  rw [manifestAssets, hvalues, Option.map_some, hloaded.identities]

/-! A runtime with one asset in a directory, which has the two bytes `1;`. -/

def assetDigest : String := "0889a34434e586e918436027c4e8b4c3380f84643731bdeb57024adb8745cf53"

/-- The digest of `replayManifest` without its own. -/
def replayDigest : String := "02c49e8365b3f0160c09e5ca8f8b918b0453a0cd0716bb0e9d67caaa0f14e542"

/-- The digest of the runtime that it was adapted from, whose asset was `0;`. -/
def sourceDigest : String := "fb99295d19f28603f3e412345a9675943c5fe02c838315bc5c3818051300d5c9"

def replayManifest : Value :=
  .object [("schemaVersion", .number (.int 1)),
    ("generatedBy", .string "tools/inspect-publish-runtime.ts"),
    ("runtimeSha256", .string replayDigest),
    ("assets", .array [.object [("path", .string "lib/app.js"), ("bytes", .number (.int 2)),
      ("sha256", .string assetDigest)]])]

def replayReceipt : Value :=
  .object [("schemaVersion", .number (.int 1)),
    ("generatedBy", .string "tools/adapt-publish-runtime.ts"),
    ("sourceRuntimeSha256", .string sourceDigest), ("outputRuntimeSha256", .string replayDigest),
    ("outputManifest", replayManifest)]

theorem isSerde_replayReceipt : IsSerde replayReceipt := by
  have hasset : ∀ v ∈ [Value.object [("path", .string "lib/app.js"), ("bytes", .number (.int 2)),
      ("sha256", .string assetDigest)]], IsSerde v := by
    rw [List.forall_mem_singleton]
    refine .object (by decide) ?_
    simp only [List.forall_mem_cons]
    exact ⟨.string _, .int _, .string _, nofun⟩
  have hmanifest : IsSerde replayManifest := by
    refine .object (by decide) ?_
    simp only [List.forall_mem_cons]
    exact ⟨.int _, .string _, .string _, .array hasset, nofun⟩
  refine .object (by decide) ?_
  simp only [List.forall_mem_cons]
  exact ⟨.int _, .string _, .string _, .string _, hmanifest, nofun⟩

def replayReceiptBytes : ByteArray := (canonicalJson replayReceipt).toUTF8

/-- The host knows the digests of the asset and of the manifest, and the text of the receipt. -/
def replayHost : PublishHost where
  sha256 bytes :=
    if bytes.data.toList = [49, 59] then assetDigest
    else if bytes.data.toList =
        (canonicalJson (unsignedManifest replayManifest)).toUTF8.data.toList then replayDigest
    else ""
  fromSlice bytes :=
    if bytes.data.toList = replayReceiptBytes.data.toList then
      some ⟨replayReceipt, isSerde_replayReceipt⟩
    else none
  debug path := path
  elsewhere _ := .missing

def replayEntries : List (FileName × Entry ByteArray) :=
  [(⟨receiptFile, true, fun _ => by decide⟩, .file replayReceiptBytes),
    (⟨"lib", true, fun _ => by decide⟩,
      .directory [(⟨"app.js", true, fun _ => by decide⟩, .file ⟨#[49, 59]⟩)])]

def replayRoot : RuntimeRoot where
  given := "runtime"
  resolved := "/srv/runtime"
  entry := some (.directory replayEntries)
  distinct e he := by
    obtain rfl := Option.some.inj he
    refine .directory (by decide) ?_
    rw [replayEntries, List.forall_mem_cons, List.forall_mem_singleton]
    refine ⟨.file _, .directory (by decide) ?_⟩
    rw [List.forall_mem_singleton]
    exact .file _

theorem VerifiedPublishRuntime.load_exact_replay :
    ∃ runtime, VerifiedPublishRuntime.load replayHost replayRoot replayDigest sourceDigest =
        .ok runtime ∧
      ∃ entries receipt listed, replayRoot.entry = some (.directory entries) ∧
        Exact replayHost entries replayDigest receipt listed runtime := by
  have hok : (VerifiedPublishRuntime.load replayHost replayRoot replayDigest
      sourceDigest).isOk = true := by decide +kernel
  cases hload : VerifiedPublishRuntime.load replayHost replayRoot replayDigest sourceDigest with
  | error e =>
    rw [hload] at hok
    cases hok
  | ok runtime => exact ⟨runtime, rfl, VerifiedPublishRuntime.load_exact _ _ hload⟩

end Blackglass
