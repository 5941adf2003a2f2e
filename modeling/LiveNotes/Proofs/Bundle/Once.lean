import LiveNotes.Proofs.Bundle.Lookup

/-! Whether a file is bundled twice. Modules are told apart by their ids, files by the places that their
paths lead to, and two paths of nothing but names that lead to one place are the same. -/

namespace LiveNotes

namespace Bundle

open Text

variable {f : FolderStore} {transpiler : Transpiler} {globals : RuntimeGlobals} {entry id : String}
  {inlineDynamic : Bool} {limit : Nat} {b : Bundle}

/-- No module under another path is the file of the folder that the path leads to. -/
def Alone (f : FolderStore) (modules : List String) (path : String) : Prop :=
  ∀ other place, Path.modulePrefix ++ other ∈ modules → f.LeadsTo path place → f.LeadsTo other place → path = other

/-- No two of some modules are the same file of a folder. -/
def OncePerFile (f : FolderStore) (modules : List String) : Prop :=
  ∀ path, Path.modulePrefix ++ path ∈ modules → Alone f modules path

/-- Of two modules that are one file, one stands under a path with more than names. -/
theorem oncePerFile_iff_alone {modules : List String} :
    OncePerFile f modules ↔ ∀ path, Path.modulePrefix ++ path ∈ modules → ¬ Path.IsPlain path → Alone f modules path := by
  refine ⟨fun honce path hpath _ => honce path hpath, ?_⟩
  intro hrough path hpath other place hother hleads hleads'
  by_cases hplain : Path.IsPlain path
  · by_cases hplain' : Path.IsPlain other
    · exact hleads.eq_of_plain hleads' hplain hplain'
    · exact (hrough other hother hplain' path place hpath hleads' hleads).symm
  · exact hrough path hpath hplain other place hother hleads hleads'

theorem isPlain_of_mem_candidates {importer specifier c : String} (himporter : Path.IsPlain importer)
    (hc : c ∈ VaultFiles.candidates importer specifier) : Path.IsPlain c := by
  obtain ⟨base, hbase, rfl⟩ := himporter
  obtain ⟨segments, rfl, hall⟩ := VaultFiles.segments_of_mem_candidates hc
  refine ⟨segments, fun s hs => ?_, rfl⟩
  obtain ⟨hsegment, hmem | hname⟩ := hall s hs
  · rcases Path.mem_split_intercalate (fun n hn => (hbase n hn).1.2) hmem with hmem | hempty
    · exact hbase s hmem
    · exact absurd hempty hsegment.1
  · exact ⟨hsegment, hname⟩

theorem lasting_isPlain : Lasting Path.IsPlain := by
  constructor
  · exact isPlain_of_mem_candidates
  · intro importer specifier c himporter hc hback
    obtain ⟨names, hnames, rfl⟩ := isPlain_of_mem_candidates himporter hc
    rw [Path.normalize_intercalate (fun n hn => (hnames n hn).1) hback]
    exact Path.isPlain_intercalate fun n hn => hnames n (Path.dropDot_subset names hn)

theorem leadsTo_of_load {text : String} (h : VaultFiles.load (.folder f) id = .ok (some text)) :
    ∃ path place, id = Path.modulePrefix ++ path ∧ f.LeadsTo path place := by
  cases hid : Path.ofModuleId? id with
  | none =>
    rw [VaultFiles.load, hid] at h
    cases h
  | some path =>
    obtain rfl := Path.eq_of_ofModuleId? hid
    rw [VaultFiles.load_prefix] at h
    split at h
    · next hhas =>
      cases hplace : f.tree.locate (f.absolute path) with
      | ok place => exact ⟨path, place, rfl, hplace⟩
      | error e =>
        have hget : f.tree.get (f.absolute path) = .error e := by
          rw [FileTree.get, hplace]
          rfl
        rw [Store.has, FileTree.isFile, hget] at hhas
        contradiction
    · cases h

theorem leadsTo_of_mem_modules
    (h : ofEntry (components (.folder f) transpiler globals) entry inlineDynamic limit = .ok b) (hid : id ∈ b.modules) :
    ∃ path place, id = Path.modulePrefix ++ path ∧ f.LeadsTo path place := by
  obtain ⟨m, rfl, text, htext, -⟩ := exists_module h hid
  rw [load_components] at htext
  exact leadsTo_of_load htext

/-- Each module of a bundle has its own id and is a file of the folder, and no file is bundled twice exactly when none is
that stands under a path with more than names. When the paths that are given have nothing but names, so have all. -/
theorem oncePerFile_iff (h : ofEntry (components (.folder f) transpiler globals) entry inlineDynamic limit = .ok b) :
    (b.modules.Nodup ∧ ∀ id ∈ b.modules, ∃ path place, id = Path.modulePrefix ++ path ∧ f.LeadsTo path place) ∧
      (OncePerFile f b.modules ↔ ∀ path, Path.modulePrefix ++ path ∈ b.modules → ¬ Path.IsPlain path →
        Alone f b.modules path) ∧
      ((∀ path, Given (.folder f) (queries (components (.folder f) transpiler globals) entry limit) path →
        Path.modulePrefix ++ path ∈ b.modules → Path.IsPlain path) → OncePerFile f b.modules) := by
  refine ⟨⟨nodup_modules h, fun id hid => leadsTo_of_mem_modules h hid⟩, oncePerFile_iff_alone, fun hgiven => ?_⟩
  rw [oncePerFile_iff_alone]
  intro path hpath hrough
  obtain ⟨path', heq, hplain⟩ := lasting_isPlain.of_load_mem
    (fun path hgives hload => hgiven path hgives ((mem_modules_iff h).2 hload)) ((mem_modules_iff h).1 hpath)
  obtain rfl := (String.append_right_inj _).1 heq
  exact absurd hplain hrough

/-- A vault of two files that import each other. -/
def pair : FolderStore where
  tree := .folder [("Components", .folder
    [("a.js", .file (bytesOf "import x from './index.js';\nexport const a = 1;")),
      ("index.js", .file (bytesOf "export * from './a';"))])]
  root := []

theorem oncePerFile_iff_pair : ∃ b,
    ofEntry (components (.folder pair) Transpile.transpile {}) "Components/index.js" true 2 = .ok b ∧
      b.modules = ["livedoc://vault/Components/index.js", "livedoc://vault/Components/a.js"] ∧
      OncePerFile pair b.modules := by
  have hmodules : (ofEntry (components (.folder pair) Transpile.transpile {}) "Components/index.js" true 2).toOption.map
      (·.modules) = some ["livedoc://vault/Components/index.js", "livedoc://vault/Components/a.js"] := by decide +kernel
  obtain ⟨b, hb, hmodules⟩ := exists_of_map hmodules
  refine ⟨b, hb, hmodules, (oncePerFile_iff hb).2.2 fun path _ hpath => ?_⟩
  have hplain : ∀ id ∈ b.modules, ∃ names, (∀ n ∈ names, Path.IsName n) ∧
      id = Path.modulePrefix ++ "/".intercalate names := by
    rw [hmodules, List.forall_mem_cons, List.forall_mem_singleton]
    exact ⟨⟨["Components", "index.js"], by decide, by decide⟩, ⟨["Components", "a.js"], by decide, by decide⟩⟩
  obtain ⟨names, hnames, heq⟩ := hplain _ hpath
  exact ⟨names, hnames, (String.append_right_inj _).1 heq⟩

/-- A vault whose entry exports what one file does twice, the second time under a path with an empty segment. -/
def twice : FolderStore where
  tree := .folder [("Components", .folder
    [("a.js", .file (bytesOf "export const a = 1;")),
      ("index.js", .file (bytesOf "export * from './a.js';\nexport * from 'livedoc://vault/Components//a.js';"))])]
  root := []

theorem not_oncePerFile_twice : ∃ b,
    ofEntry (components (.folder twice) Transpile.transpile {}) "Components/index.js" true 3 = .ok b ∧
      ¬ OncePerFile twice b.modules := by
  have hmodules : (ofEntry (components (.folder twice) Transpile.transpile {}) "Components/index.js" true 3).toOption.map
      (·.modules) = some ["livedoc://vault/Components/index.js", "livedoc://vault/Components/a.js",
        "livedoc://vault/Components//a.js"] := by decide +kernel
  obtain ⟨b, hb, hmodules⟩ := exists_of_map hmodules
  refine ⟨b, hb, fun honce => ?_⟩
  rw [hmodules] at honce
  have hsame := honce "Components/a.js" (by decide) "Components//a.js" ["Components", "a.js"] (by decide) rfl rfl
  exact absurd hsame (by decide)

end Bundle

end LiveNotes
