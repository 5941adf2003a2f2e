import LiveNotes.Proofs.Bundle.Lookup
import LiveNotes.Proofs.Transpile.Runtime

/-! Who sees to the imports of a component. The transpiler reads some from the registry of modules and
leaves the others to the bundler, which asks the vault what they stand for. Both go by the first
characters of the specifier, and they agree but for ids of modules and the runtime of markup, which the
vault would answer for and the transpiler takes. -/

namespace LiveNotes.Bundle

open Text Script Transpile

variable {store : Store} {globals : RuntimeGlobals} {importer path specifier : String}

namespace VaultFiles

/-- The vault says what an import stands for, or why it cannot be found. -/
def Answers (store : Store) (importer specifier : String) : Prop :=
  resolve store specifier (some importer) ≠ .ok none

/-- An import that is left to the vault: it answers, and neither is the import one by an id nor one of the
runtime of markup. -/
structure Serves (store : Store) (globals : RuntimeGlobals) (importer specifier : String) : Prop where
  answers : Answers store importer specifier
  notId : hasPrefix Path.modulePrefix specifier = false
  notRuntime : globals.isMarkupRuntime specifier = false

/-! ### First characters -/

theorem head?_of_hasPrefix {start s : String} {c : Char} (h : hasPrefix start s = true)
    (hc : start.toList.head? = some c) : s.toList.head? = some c := by
  rw [hasPrefix, List.isPrefixOf_iff_prefix] at h
  obtain ⟨rest, hrest⟩ := h
  rw [← hrest, List.head?_append, hc, Option.some_or]

theorem hasPrefix_dot_iff {s : String} : hasPrefix "." s = true ↔ s.toList.head? = some '.' := by
  refine ⟨fun h => head?_of_hasPrefix h rfl, fun h => ?_⟩
  obtain ⟨rest, hrest⟩ := List.head?_eq_some_iff.1 h
  rw [hasPrefix, hrest]
  rfl

theorem head?_of_isExternal (h : Path.isExternal specifier = true) :
    specifier.toList.head? = some 'h' := by
  rcases Bool.or_eq_true_iff.1 h with h | h
  · exact head?_of_hasPrefix h rfl
  · exact head?_of_hasPrefix h rfl

theorem hasPrefix_dot_of_isRelative (h : Path.isRelative specifier = true) :
    hasPrefix "." specifier = true := by
  rw [hasPrefix_dot_iff]
  rcases Bool.or_eq_true_iff.1 h with h | h
  · exact head?_of_hasPrefix h rfl
  · exact head?_of_hasPrefix h rfl

/-- The vault answers for a module of its own exactly if the specifier is an id, a URL or relative. -/
theorem answers_iff (hid : Path.ofModuleId? importer = some path) :
    Answers store importer specifier ↔ hasPrefix Path.modulePrefix specifier = true ∨
      Path.isExternal specifier = true ∨ Path.isRelative specifier = true := by
  unfold Answers resolve
  cases hprefix : hasPrefix Path.modulePrefix specifier with
  | true => simp
  | false =>
    cases hexternal : Path.isExternal specifier with
    | true => simp
    | false =>
      cases hrelative : Path.isRelative specifier with
      | false => simp
      | true =>
        simp only [hid]
        cases probe store specifier path with
        | error e => simp [Except.map]
        | ok found => simp [Except.map]

/-- The transpiler leaves to the vault what that is to see to, if a dot starts relative specifiers alone. -/
theorem isRegistered_eq_false_iff (hid : Path.ofModuleId? importer = some path)
    (hdot : hasPrefix "." specifier = true → Path.isRelative specifier = true) :
    isRegistered globals true specifier = false ↔ Serves store globals importer specifier := by
  have hkind : isRegistered globals true specifier = false ↔ globals.isMarkupRuntime specifier = false ∧
      (hasPrefix "." specifier = true ∨ Path.isExternal specifier = true) := by
    unfold isRegistered
    cases globals.isMarkupRuntime specifier with
    | true => simp
    | false => cases hasPrefix "." specifier with
      | true => simp
      | false => simp
  rw [hkind]
  constructor
  · rintro ⟨hruntime, hstart⟩
    refine ⟨(answers_iff hid).2 (Or.inr ?_), ?_, hruntime⟩
    · exact hstart.elim (fun h => Or.inr (hdot h)) Or.inl
    · rw [Bool.eq_false_iff]
      intro hprefix
      -- An id starts with another letter than what the transpiler leaves.
      have hhead := head?_of_hasPrefix hprefix rfl
      rcases hstart with hstart | hstart
      · rw [hasPrefix_dot_iff.1 hstart] at hhead
        exact absurd hhead (by decide)
      · rw [head?_of_isExternal hstart] at hhead
        exact absurd hhead (by decide)
  · rintro ⟨hanswers, hnotId, hruntime⟩
    refine ⟨hruntime, ?_⟩
    rcases (answers_iff hid).1 hanswers with hprefix | hexternal | hrelative
    · rw [hnotId] at hprefix
      contradiction
    · exact Or.inr hexternal
    · exact Or.inl (hasPrefix_dot_of_isRelative hrelative)

/-- An import that a vault answers for is none that is not resolved. -/
theorem unresolved_addImport (h : Answers store importer specifier) {transpiler : Transpiler}
    {found : Option Resolved} {i : Import} (hi : i.specifier = specifier)
    (hfound : Plugins.resolve (components store transpiler globals) i.specifier (some importer) = .ok found)
    (s : Gathering) : (s.addImport importer i found).unresolved = s.unresolved := by
  rw [resolve_components, hi] at hfound
  cases found with
  | none => exact absurd hfound h
  | some r =>
    obtain ⟨id, external⟩ := r
    unfold Gathering.addImport
    cases external with
    | true =>
      dsimp only
      split
      · rfl
      · rfl
    | false =>
      dsimp only
      split
      · rfl
      · rfl

/-! ### The imports of a component -/

/-- What the transpiler is told of a component. -/
def transpileOptions (globals : RuntimeGlobals) (path : String) : Options :=
  { file := path, registerImports := true, scope := some rootScopeId, globals := globals }

theorem transpile_of_transform {code out : String}
    (h : transform transpile globals code importer = .ok (some out)) :
    ∃ path, Path.ofModuleId? importer = some path ∧
      transpile code (transpileOptions globals path) = .ok out := by
  unfold transform at h
  split at h
  · exact absurd (Except.ok.inj h) (by simp)
  · next path hpath =>
    split at h
    · exact absurd (Except.ok.inj h) (by simp)
    · dsimp only at h
      split at h
      · next hout =>
        obtain rfl := Option.some.inj (Except.ok.inj h)
        exact ⟨path, hpath, hout⟩
      · contradiction

/-- Each import in the plain form of a component stays where it is if the vault sees to it, and is then
resolved or fails with the files that were looked for; all others are replaced by reads of the registry. -/
theorem imports_left_iff {code out : String}
    (h : transform transpile globals code importer = .ok (some out)) :
    ∃ path plain script made, Path.ofModuleId? importer = some path ∧
      lower code (transpileOptions globals path) = .ok plain ∧ parse .plainModule plain = some script ∧
      Edit.Makes 0 made plain.toList out.toList ∧
      ∀ phase specifier bare typeOnly m ks,
        .node (.importDecl phase specifier bare typeOnly) m ks ∈ script.tree.kids →
        (hasPrefix "." specifier = true → Path.isRelative specifier = true) →
          (Serves store globals importer specifier → (∀ e ∈ made, (editSpan e).Apart m) ∧
            ∀ (transpiler : Transpiler) (i : Import) (found : Option Resolved) (s : Gathering),
              i.specifier = specifier →
              Plugins.resolve (components store transpiler globals) i.specifier (some importer) = .ok found →
                (s.addImport importer i found).unresolved = s.unresolved) ∧
          (¬ Serves store globals importer specifier →
            ⟨m.start, m.stop, registryRead globals.moduleRegistry specifier ks⟩ ∈ made) := by
  obtain ⟨path, hid, hout⟩ := transpile_of_transform h
  obtain ⟨plain, hplain, hout⟩ := lower_of_transpile hout
  obtain ⟨script, hscript⟩ := exists_parse_of_withLookups hout
  obtain ⟨out', made, hout', hmade, hmem⟩ := exists_made_changes hscript (transpileOptions globals path)
  obtain rfl : out = out' := Except.ok.inj (hout.symm.trans hout')
  have hspaced := spaced_parse hscript
  have hregular : Regular plain.toList script.tree := hspaced.regular _ (List.mem_singleton_self _)
  have hapart := hspaced.apart
  rw [marksAll_singleton] at hapart
  refine ⟨path, plain, script, made, hid, hplain, hscript, hmade, ?_⟩
  intro phase specifier bare typeOnly m ks hitem hdot
  obtain ⟨i, hi⟩ := List.getElem?_of_mem hitem
  have hat : script.tree.at? [i] = some (.node (.importDecl phase specifier bare typeOnly) m ks) :=
    Tree.at?_cons.2 ⟨_, hi, rfl⟩
  have hkind : isRegistered globals true specifier = false ↔ Serves store globals importer specifier :=
    isRegistered_eq_false_iff hid hdot
  refine ⟨fun hserves => ⟨fun e he => ?_, ?_⟩, fun hserves => ?_⟩
  · obtain ⟨path', hchange⟩ := (hmem e).1 he
    obtain ⟨v, hv, hvleaf, hmay, hspan⟩ := hchange.mayChange
    rw [hspan]
    refine apart_of_path_ne hapart hv hat (hchange.shows hregular) (hregular.shows hat rfl (by simp)) hvleaf
      rfl ?_
    rintro rfl
    obtain rfl := Option.some.inj (hat.symm.trans hv)
    cases hmay with
    | import_ hregistered => exact Bool.false_ne_true ((hkind.2 hserves).symm.trans hregistered)
  · exact fun transpiler i found s hi hfound => unresolved_addImport hserves.answers hi hfound s
  · have hregistered : isRegistered globals true specifier = true := by
      rw [← Bool.not_eq_false, hkind]
      exact hserves
    exact (hmem _).2 ⟨[i], .import_ hat hregistered (not_inLookup_item hscript _ i)⟩

/-- A component with a relative import and one of a package. -/
def mixedImports : String :=
  "import { a } from \"./a.js\";\nimport { b } from \"b\";\na(b);\n"

/-- The relative import stays, the other one is read from the registry. -/
theorem imports_left_iff_mixed : ∃ out made,
    transform transpile {} mixedImports "livedoc://vault/C/index.js" = .ok (some out) ∧
      Edit.Makes 0 made mixedImports.toList out.toList ∧ (∀ e ∈ made, (editSpan e).Apart ⟨0, 27⟩) ∧
      ⟨28, 50, "const { b } = window._livedocModules[\"b\"];"⟩ ∈ made := by
  have hsome : ((transform transpile {} mixedImports "livedoc://vault/C/index.js").toOption.bind id).isSome =
      true := by decide +kernel
  have hlower : (lower mixedImports (transpileOptions {} "C/index.js")).toOption = some mixedImports := by
    decide +kernel
  have hitems : ∀ s ∈ parse .plainModule mixedImports,
      s.tree.kids[0]?.map (fun u => (u.label, u.span)) =
          some (.importDecl .evaluation "./a.js" false false, ⟨0, 27⟩) ∧
        s.tree.kids[1]?.map (fun u => (u.label, u.span, registryRead "window._livedocModules" "b" u.kids)) =
          some (.importDecl .evaluation "b" false false, ⟨28, 50⟩,
            "const { b } = window._livedocModules[\"b\"];") := by decide +kernel
  have hid : Path.ofModuleId? "livedoc://vault/C/index.js" = some "C/index.js" := by decide +kernel
  have hserves : Serves default {} "livedoc://vault/C/index.js" "./a.js" :=
    (isRegistered_eq_false_iff hid fun _ => by decide +kernel).1 (by decide +kernel)
  have hother : ¬ Serves default {} "livedoc://vault/C/index.js" "b" := by
    rw [← isRegistered_eq_false_iff hid (by decide +kernel)]
    decide +kernel
  cases hout : transform transpile {} mixedImports "livedoc://vault/C/index.js" with
  | error e => simp [hout, Except.toOption] at hsome
  | ok out? =>
    cases out? with
    | none => simp [hout, Except.toOption] at hsome
    | some out =>
      obtain ⟨path, plain, script, made, hpath, hplain, hscript, hmade, himports⟩ :=
        @imports_left_iff default _ _ _ _ hout
      obtain rfl := Option.some.inj (hid.symm.trans hpath)
      rw [hplain] at hlower
      obtain rfl := Option.some.inj hlower
      obtain ⟨hfirst, hsecond⟩ := hitems script hscript
      obtain ⟨⟨label, span, ks⟩, hu, hparts⟩ := Option.map_eq_some_iff.1 hfirst
      obtain ⟨rfl, rfl⟩ := by simpa using hparts
      obtain ⟨⟨label, span, ks'⟩, hv, hparts⟩ := Option.map_eq_some_iff.1 hsecond
      obtain ⟨rfl, rfl, hread⟩ := by simpa using hparts
      refine ⟨out, made, rfl, hmade, ?_, ?_⟩
      · exact ((himports _ _ _ _ _ _ (List.mem_of_getElem? hu) (by decide +kernel)).1 hserves).1
      · have hmem := (himports _ _ _ _ _ _ (List.mem_of_getElem? hv) (by decide +kernel)).2 hother
        rwa [hread] at hmem

/-- The id of a module and a runtime under a URL are read from the registry although the vault answers for
them; a name that starts with a dot stays although it does not. -/
theorem imports_disagree :
    (Answers default "livedoc://vault/C/index.js" "livedoc://vault/C/a.js" ∧
      (transform transpile {} "import { a } from \"livedoc://vault/C/a.js\";\nexport const b = a;\n"
        "livedoc://vault/C/index.js").toOption =
        some (some ("const { a } = window._livedocModules[\"livedoc://vault/C/a.js\"];\n" ++
          "export const b = a;\n"))) ∧
    (Answers default "livedoc://vault/C/index.js" "https://esm.sh/preact/jsx-runtime" ∧
      (transform transpile { markupSource := "https://esm.sh/preact" }
        "import \"https://esm.sh/preact/jsx-runtime\";\n" "livedoc://vault/C/index.js").toOption =
        some (some "window._livedocModules[\"https://esm.sh/preact/jsx-runtime\"];\n")) ∧
    ¬ Answers default "livedoc://vault/C/index.js" ".hidden" ∧
      (transform transpile {} "import \".hidden\";\n" "livedoc://vault/C/index.js").toOption =
        some (some "import \".hidden\";\n") := by
  have hid : Path.ofModuleId? "livedoc://vault/C/index.js" = some "C/index.js" := by decide +kernel
  refine ⟨⟨(answers_iff hid).2 (by decide +kernel), ?_⟩, ⟨(answers_iff hid).2 (by decide +kernel), ?_⟩, ?_, ?_⟩
  · decide +kernel
  · decide +kernel
  · rw [answers_iff hid]
    decide +kernel
  · decide +kernel

end VaultFiles

end LiveNotes.Bundle
