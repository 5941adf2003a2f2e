import LiveNotes.Bundle.Stylesheet
import LiveNotes.Proofs.Bundle.Candidates
import LiveNotes.Proofs.Bundle.Query
import LiveNotes.Proofs.Vault.Path

/-! The paths under which files are looked up while components are bundled. A property of paths that is
kept when relative imports are followed holds of all of them if it holds of those that are given: by the
entry, by an import with a whole id, and by a file with a backslash in its name. -/

namespace LiveNotes

/-- Two stores hold the same under a path. -/
def Store.Agree (s s' : Store) (path : String) : Prop := s.has path = s'.has path ∧ s.read path = s'.read path

namespace Bundle

open Text

namespace VaultFiles

variable {store store' : Store} {specifier importer id path c : String} {paths : List String} {q : Query}

/-- Paths up to the first that is a file. -/
def upToFirst (store : Store) : List String → List String
  | [] => []
  | path :: paths => path :: if store.has path then [] else upToFirst store paths

/-- The paths that are looked up for a query, in their order. -/
def lookups (store : Store) : Query → List String
  | .load id => (Path.ofModuleId? id).toList
  | .resolve specifier (some importer) =>
    match Path.ofModuleId? importer with
    | some path => if Path.isRelative specifier then upToFirst store (candidates path specifier) else []
    | none => []
  | .resolve _ none => []

theorem upToFirst_subset (store : Store) (paths : List String) : upToFirst store paths ⊆ paths := by
  induction paths with
  | nil => exact List.Subset.refl _
  | cons path paths ih =>
    rw [upToFirst]
    split
    · exact List.cons_subset_cons path (List.nil_subset _)
    · exact List.cons_subset_cons path ih

theorem find?_has_congr (h : ∀ path ∈ upToFirst store paths, store.Agree store' path) :
    paths.find? store.has = paths.find? store'.has := by
  induction paths with
  | nil => rfl
  | cons path paths ih =>
    rw [upToFirst, List.forall_mem_cons] at h
    obtain ⟨⟨hpath, -⟩, hpaths⟩ := h
    rw [List.find?_cons, List.find?_cons, ← hpath]
    cases hhas : store.has path with
    | true => rfl
    | false =>
      rw [hhas, if_neg Bool.false_ne_true] at hpaths
      exact ih hpaths

theorem load_congr (h : ∀ path ∈ lookups store (.load id), store.Agree store' path) :
    load store id = load store' id := by
  rw [lookups] at h
  rw [load, load]
  cases hid : Path.ofModuleId? id with
  | none => rfl
  | some path =>
    obtain ⟨hhas, hread⟩ := h path (by rw [hid]; exact List.mem_cons_self)
    simp only [hhas, hread]

theorem resolve_congr {importer? : Option String}
    (h : ∀ path ∈ lookups store (.resolve specifier importer?), store.Agree store' path) :
    resolve store specifier importer? = resolve store' specifier importer? := by
  cases importer? with
  | none => rfl
  | some importer =>
    rw [lookups] at h
    cases himporter : Path.ofModuleId? importer with
    | none => simp only [resolve, himporter]
    | some path =>
      simp only [himporter] at h
      cases hrelative : Path.isRelative specifier with
      | false => simp only [resolve, hrelative, Bool.false_eq_true, if_false]
      | true =>
        rw [hrelative, if_pos rfl] at h
        simp only [resolve, himporter, probe, find?_has_congr h]

end VaultFiles

/-- The plugins for components in the files of a store. -/
def components (store : Store) (transpiler : Transpiler) (globals : RuntimeGlobals) : List Plugin :=
  [vaultFiles store transpiler globals, stylesheets]

section Components

variable {store store' : Store} {transpiler : Transpiler} {globals : RuntimeGlobals}
  {entry specifier id : String} {limit : Nat}

theorem resolve_components (store : Store) (transpiler : Transpiler) (globals : RuntimeGlobals) (specifier : String)
    (importer? : Option String) :
    Plugins.resolve (components store transpiler globals) specifier importer? =
      VaultFiles.resolve store specifier importer? := by
  have hfirst : (vaultFiles store transpiler globals).resolve specifier importer? =
      VaultFiles.resolve store specifier importer? := rfl
  simp only [Plugins.resolve, components, Plugins.firstAnswer, hfirst]
  cases VaultFiles.resolve store specifier importer? with
  | error e => rfl
  | ok found =>
    cases found with
    | none => rfl
    | some found => rfl

theorem load_components (store : Store) (transpiler : Transpiler) (globals : RuntimeGlobals) (id : String) :
    Plugins.load (components store transpiler globals) id = VaultFiles.load store id := by
  have hfirst : (vaultFiles store transpiler globals).load id = VaultFiles.load store id := rfl
  simp only [Plugins.load, components, Plugins.firstAnswer, hfirst]
  cases VaultFiles.load store id with
  | error e => rfl
  | ok text? =>
    cases text? with
    | none => rfl
    | some text => rfl

/-- The paths that are looked up while the components of an entry are bundled, in their order. -/
def lookups (store : Store) (transpiler : Transpiler) (globals : RuntimeGlobals) (entry : String) (limit : Nat) :
    List String :=
  (queries (components store transpiler globals) entry limit).flatMap (VaultFiles.lookups store)

/-- Stores that hold the same under the paths that are looked up give the same bundle. -/
theorem ofEntry_components_congr (h : ∀ path ∈ lookups store transpiler globals entry limit, store.Agree store' path)
    (inlineDynamic : Bool) : ofEntry (components store transpiler globals) entry inlineDynamic limit =
      ofEntry (components store' transpiler globals) entry inlineDynamic limit := by
  have halike : Gathering.Alike (queries (components store transpiler globals) entry limit)
      (components store transpiler globals) (components store' transpiler globals) := by
    refine ⟨?_, ?_, fun code id => rfl⟩
    · intro id hid
      rw [load_components, load_components]
      exact VaultFiles.load_congr fun path hpath => h path (List.mem_flatMap.2 ⟨_, hid, hpath⟩)
    · intro specifier importer? hmem
      rw [resolve_components, resolve_components]
      exact VaultFiles.resolve_congr fun path hpath => h path (List.mem_flatMap.2 ⟨_, hmem, hpath⟩)
  exact ofEntry_congr halike inlineDynamic

/-! ### Where paths come from -/

/-- The paths that are not made by following a relative import by its segments: that of the entry, those of
whole ids, and those under which files with a backslash in their names are loaded. -/
inductive Given (store : Store) (asked : List Query) : String → Prop
  | entry {entry : String} : .resolve entry none ∈ asked → hasPrefix Path.modulePrefix entry = false →
      Given store asked (Path.normalize entry)
  | whole {path : String} {importer? : Option String} : .resolve (Path.modulePrefix ++ path) importer? ∈ asked →
      Given store asked path
  | backslash {specifier importer c : String} : .resolve specifier (some (Path.modulePrefix ++ importer)) ∈ asked →
      Path.isRelative specifier = true → VaultFiles.IsFirst store (VaultFiles.tried importer specifier) c →
      '\x5c' ∈ c.toList → Given store asked (Path.normalize c)

/-- A module's path is given or follows, by segments, from that of the module that imports it. -/
theorem given_or_found {asked : List Query} {importer? : Option String} (hasked : .resolve specifier importer? ∈ asked)
    (h : VaultFiles.resolve store specifier importer? = .ok (some ⟨id, false⟩)) :
    ∃ path, id = Path.modulePrefix ++ path ∧ (Given store asked path ∨ ∃ importer c,
      importer? = some (Path.modulePrefix ++ importer) ∧ c ∈ VaultFiles.candidates importer specifier ∧
        '\x5c' ∉ c.toList ∧ path = Path.normalize c) := by
  unfold VaultFiles.resolve at h
  split at h
  · next hwhole =>
    obtain ⟨path, rfl⟩ := hasPrefix_iff.1 hwhole
    simp only [Except.ok.injEq, Option.some.injEq, Resolved.mk.injEq, and_true] at h
    exact ⟨path, h.symm, Or.inl (Given.whole hasked)⟩
  · next hwhole =>
    split at h
    · simp only [Except.ok.injEq, Option.some.injEq, Resolved.mk.injEq, and_true] at h
      exact ⟨_, h.symm, Or.inl (Given.entry hasked (Bool.eq_false_iff.2 hwhole))⟩
    · next importer =>
      split at h
      · simp at h
      · split at h
        · next hrelative =>
          split at h
          · next path himporter =>
            obtain rfl := Path.eq_of_ofModuleId? himporter
            cases hprobe : VaultFiles.probe store specifier path with
            | error e =>
              rw [hprobe] at h
              contradiction
            | ok c =>
              rw [hprobe] at h
              simp only [Except.map, Except.ok.injEq, Option.some.injEq, Resolved.mk.injEq, and_true] at h
              have hfirst := VaultFiles.isFirst_of_probe hprobe
              refine ⟨Path.normalize c, h.symm, ?_⟩
              by_cases hback : '\x5c' ∈ c.toList
              · exact Or.inl (Given.backslash hasked hrelative hfirst hback)
              · obtain ⟨before, after, htried, -, -⟩ := hfirst
                have hmem : c ∈ VaultFiles.candidates path specifier := by simp [VaultFiles.candidates_eq_tried, htried]
                exact Or.inr ⟨path, c, rfl, hmem, hback, rfl⟩
          · simp at h
        · simp at h

/-- A property of paths that is kept when a relative import is followed. -/
structure Lasting (P : String → Prop) : Prop where
  candidate : ∀ {importer specifier c}, P importer → c ∈ VaultFiles.candidates importer specifier → P c
  normalize : ∀ {importer specifier c}, P importer → c ∈ VaultFiles.candidates importer specifier → '\x5c' ∉ c.toList →
    P (Path.normalize c)

/-- What is true of all paths that are given is true of the paths of all modules. -/
theorem Lasting.of_load_mem {P : String → Prop} (hP : Lasting P)
    (hgiven : ∀ path, Given store (queries (components store transpiler globals) entry limit) path →
      .load (Path.modulePrefix ++ path) ∈ queries (components store transpiler globals) entry limit → P path)
    (hid : .load id ∈ queries (components store transpiler globals) entry limit) :
    ∃ path, id = Path.modulePrefix ++ path ∧ P path := by
  have hled := led_of_mem_queries hid
  -- Only where a relative import is followed does the importer's path count, which has the property before.
  induction hled with
  | entry hasked hfound =>
    rw [resolve_components] at hfound
    obtain ⟨path, rfl, hgives | ⟨importer, c, himporter, -⟩⟩ := given_or_found hasked hfound
    · exact ⟨path, rfl, hgiven path hgives hid⟩
    · contradiction
  | imported _ hload hasked hfound ih =>
    rw [resolve_components] at hfound
    obtain ⟨path, rfl, hgives | ⟨importer, c, himporter, hc, hback, rfl⟩⟩ := given_or_found hasked hfound
    · exact ⟨path, rfl, hgiven path hgives hid⟩
    · obtain ⟨path, heq, hpath⟩ := ih hload
      obtain rfl := Option.some.inj himporter
      obtain rfl := (String.append_right_inj _).1 heq
      exact ⟨_, rfl, hP.normalize hpath hc hback⟩

/-! ### Paths that never go up -/

theorem staysBelow_intercalate {segments : List String} (h : ∀ s ∈ segments, Path.IsSegment s ∧ s ≠ "..") :
    Path.StaysBelow ("/".intercalate segments) := by
  intro hmem
  rcases Path.mem_split_intercalate (fun s hs => (h s hs).1.2) hmem with hs | hempty
  · exact (h _ hs).2 rfl
  · exact absurd hempty (by decide)

theorem lasting_staysBelow : Lasting Path.StaysBelow := by
  have hsegments : ∀ {importer specifier c : String}, Path.StaysBelow importer →
      c ∈ VaultFiles.candidates importer specifier →
      ∃ segments, c = "/".intercalate segments ∧ ∀ s ∈ segments, Path.IsSegment s ∧ s ≠ ".." := by
    intro importer specifier c himporter hc
    obtain ⟨segments, heq, hall⟩ := VaultFiles.segments_of_mem_candidates hc
    refine ⟨segments, heq, fun s hs => ⟨(hall s hs).1, ?_⟩⟩
    rintro rfl
    exact (hall _ hs).2.elim himporter fun hname => hname.2 rfl
  constructor
  · intro importer specifier c himporter hc
    obtain ⟨segments, rfl, hall⟩ := hsegments himporter hc
    exact staysBelow_intercalate hall
  · intro importer specifier c himporter hc hback
    obtain ⟨segments, rfl, hall⟩ := hsegments himporter hc
    rw [Path.normalize_intercalate (fun s hs => (hall s hs).1) hback]
    exact staysBelow_intercalate fun s hs => hall s (Path.dropDot_subset segments hs)

theorem mem_lookups {path : String} (h : path ∈ lookups store transpiler globals entry limit) :
    ∃ base, .load (Path.modulePrefix ++ base) ∈ queries (components store transpiler globals) entry limit ∧
      (path = base ∨ ∃ specifier, path ∈ VaultFiles.candidates base specifier) := by
  obtain ⟨q, hq, hpath⟩ := List.mem_flatMap.1 h
  cases q with
  | load id =>
    obtain rfl := Path.eq_of_ofModuleId? (Option.mem_toList.1 hpath)
    exact ⟨path, hq, Or.inl rfl⟩
  | resolve specifier importer? =>
    cases importer? with
    | none => contradiction
    | some importer =>
      rw [VaultFiles.lookups] at hpath
      split at hpath
      · next base hbase =>
        obtain rfl := Path.eq_of_ofModuleId? hbase
        split at hpath
        · exact ⟨base, load_mem_of_resolve_mem hq, Or.inr ⟨specifier, VaultFiles.upToFirst_subset store _ hpath⟩⟩
        · contradiction
      · contradiction

/-- A bundle depends on the files only that are looked up for it, and all of them are looked up by paths that never go
up, below the folder of the vault, exactly when the paths that are given for modules never do. -/
theorem staysBelow_lookups_iff (store : Store) (transpiler : Transpiler) (globals : RuntimeGlobals) (entry : String)
    (limit : Nat) :
    (∀ store' inlineDynamic, (∀ path ∈ lookups store transpiler globals entry limit, store.Agree store' path) →
      ofEntry (components store transpiler globals) entry inlineDynamic limit =
        ofEntry (components store' transpiler globals) entry inlineDynamic limit) ∧
      ((∀ path ∈ lookups store transpiler globals entry limit, Path.StaysBelow path) ↔
        ∀ path, Given store (queries (components store transpiler globals) entry limit) path →
          .load (Path.modulePrefix ++ path) ∈ queries (components store transpiler globals) entry limit →
            Path.StaysBelow path) ∧
      ∀ f, store = .folder f → ∀ path ∈ lookups store transpiler globals entry limit, Path.StaysBelow path →
        ∀ place, f.LeadsTo path place → ∃ base, f.tree.locate f.root = .ok base ∧ base <+: place := by
  refine ⟨fun store' inlineDynamic h => ofEntry_components_congr h inlineDynamic, ⟨?_, ?_⟩, ?_⟩
  · intro hall path _ hload
    refine hall path (List.mem_flatMap.2 ⟨_, hload, ?_⟩)
    rw [VaultFiles.lookups, Path.ofModuleId?_prefix]
    exact List.mem_cons_self
  · intro hgiven path hpath
    obtain ⟨base, hload, hbase⟩ := mem_lookups hpath
    obtain ⟨base', heq, hbelow⟩ := lasting_staysBelow.of_load_mem hgiven hload
    obtain rfl := (String.append_right_inj _).1 heq
    rcases hbase with rfl | ⟨specifier, hc⟩
    · exact hbelow
    · exact lasting_staysBelow.candidate hbelow hc
  · intro f _ path _ hpath place hplace
    exact hplace.below hpath

/-- A vault whose entry exports what a file beside the vault does. -/
def leaving : FolderStore where
  tree := .folder [("secret.js", .file (bytesOf "export const secret = 1;")),
    ("vault", .folder [("Components", .folder
      [("index.js", .file (bytesOf "export * from 'livedoc://vault/../secret.js';"))])])]
  root := ["vault"]

theorem leaves_vault_leaving :
    Path.StaysBelow "Components/index.js" ∧
      "../secret.js" ∈ lookups (.folder leaving) Transpile.transpile {} "Components/index.js" 2 ∧
      ¬ Path.StaysBelow "../secret.js" ∧ leaving.LeadsTo "../secret.js" ["secret.js"] := by
  refine ⟨by decide +kernel, by decide +kernel, by decide +kernel, rfl⟩

end Components

end Bundle

end LiveNotes
