import LiveNotes.Proofs.Transpile.Frame

/-! Imports of the runtime of markup are read from the registry of modules, whatever the options are. -/

namespace LiveNotes.Transpile

open Script Text

variable {options : Options} {code source out : String} {script : Program}

/-- A script with its surroundings is plain code, in which edits are made. -/
theorem lower_of_transpile (h : transpile source options = .ok out) :
    ∃ plain, lower source options = .ok plain ∧ withLookups plain options = .ok out := by
  unfold transpile at h
  cases hplain : lower source options with
  | error fault => simp [hplain, bind, Except.bind] at h
  | ok plain =>
    refine ⟨plain, rfl, ?_⟩
    simp only [hplain, bind, Except.bind] at h
    split at h
    · simp [throw, throwThe, MonadExceptOf.throw] at h
    · exact h

/-- The items of a script are in no lookup. -/
theorem not_inLookup_item (hscript : parse .plainModule code = some script) (options : Options) (i : Nat) :
    ¬InLookup options code script.tree [i] := by
  rintro ⟨front, j, back, span, test, ks, hpath, hat, _⟩
  obtain rfl : front = [] := by
    cases front with
    | nil => rfl
    | cons a front => simp at hpath
  have hlabel := label_parse hscript
  obtain htree : script.tree = _ := by simpa using hat
  simp [htree] at hlabel

/-- An import of the runtime of markup. -/
theorem isRegistered_of_isMarkupRuntime {g : RuntimeGlobals} {all : Bool} {source : String}
    (h : g.isMarkupRuntime source = true) : isRegistered g all source = true := by
  rw [isRegistered, h, Bool.true_or]

/-- The code of a script asks for the runtime of markup as its plain form does, but that the imports of the runtime
are read from the registry, with and without the option for all imports. The texts in quotes stay, also where they
are those of calls that require the runtime. -/
theorem runtime_imports_registered (h : transpile source options = .ok out) :
    ∃ plain script made, lower source options = .ok plain ∧ parse .plainModule plain = some script ∧
      Edit.Makes 0 made plain.toList out.toList ∧
      (∀ phase from_ bare typeOnly m ks, .node (.importDecl phase from_ bare typeOnly) m ks ∈ script.tree.kids →
        options.globals.isMarkupRuntime from_ = true →
          ⟨m.start, m.stop, registryRead options.globals.moduleRegistry from_ ks⟩ ∈ made) ∧
      ∀ path s surrogates m ks, script.tree.at? path = some (.node (.string s surrogates) m ks) →
        ∀ e ∈ made, (editSpan e).Apart m := by
  obtain ⟨plain, hplain, hout⟩ := lower_of_transpile h
  obtain ⟨script, hscript⟩ := exists_parse_of_withLookups hout
  obtain ⟨out', made, hout', hmade, hmem⟩ := exists_made_changes hscript options
  obtain rfl : out = out' := Except.ok.inj (hout.symm.trans hout')
  have hspaced := spaced_parse hscript
  have hregular : Regular plain.toList script.tree := hspaced.regular _ (List.mem_singleton_self _)
  have hapart := hspaced.apart
  rw [marksAll_singleton] at hapart
  refine ⟨plain, script, made, hplain, hscript, hmade, fun phase from_ bare typeOnly m ks hitem hruntime => ?_,
    fun path s surrogates m ks hat e he => ?_⟩
  · obtain ⟨i, hi⟩ := List.getElem?_of_mem hitem
    have hat : script.tree.at? [i] = some (.node (.importDecl phase from_ bare typeOnly) m ks) :=
      Tree.at?_cons.2 ⟨_, hi, rfl⟩
    exact (hmem _).2 ⟨[i], .import_ hat (isRegistered_of_isMarkupRuntime hruntime) (not_inLookup_item hscript options i)⟩
  · obtain ⟨path', hchange⟩ := (hmem e).1 he
    obtain ⟨v, hv, hvleaf, hmay, hspan⟩ := hchange.mayChange
    rw [hspan]
    refine apart_of_path_ne hapart hv hat (hchange.shows hregular) (hregular.shows hat ?_ (by simp)) hvleaf rfl ?_
    · rfl
    · rintro rfl
      obtain rfl := Option.some.inj (hat.symm.trans hv)
      cases hmay

/-- A module of markup reads its helper from the registry though it registers no imports. -/
theorem runtime_imports_registered_module : ∃ out made, transpile "export default <b />;" {} = .ok out ∧
    Edit.Makes 0 made ("import { jsx as _jsx } from \"react/jsx-runtime\";\n" ++
      "export default /* @__PURE__ */ _jsx(\"b\", {});\n").toList out.toList ∧
    ⟨0, 48, "const { jsx: _jsx } = window._livedocModules[\"react/jsx-runtime\"];"⟩ ∈ made := by
  have hcode : (transpile "export default <b />;" {}).toOption.isSome = true ∧
      (lower "export default <b />;" {}).toOption = some ("import { jsx as _jsx } from \"react/jsx-runtime\";\n" ++
        "export default /* @__PURE__ */ _jsx(\"b\", {});\n") := by
    decide +kernel
  have hitem : ∀ s ∈ parse .plainModule ("import { jsx as _jsx } from \"react/jsx-runtime\";\n" ++
        "export default /* @__PURE__ */ _jsx(\"b\", {});\n"),
      (s.tree.kids.head?.map fun u =>
        (u.label, u.span, registryRead "window._livedocModules" "react/jsx-runtime" u.kids)) =
        some (.importDecl .evaluation "react/jsx-runtime" false false, ⟨0, 48⟩,
          "const { jsx: _jsx } = window._livedocModules[\"react/jsx-runtime\"];") := by
    decide +kernel
  obtain ⟨hsome, hlower⟩ := hcode
  cases hout : transpile "export default <b />;" {} with
  | error fault => simp [hout, Except.toOption] at hsome
  | ok out =>
    obtain ⟨plain, script, made, hplain, hscript, hmade, himports, _⟩ := runtime_imports_registered hout
    rw [hplain] at hlower
    obtain rfl := Option.some.inj hlower
    obtain ⟨⟨label, span, ks⟩, hhead, hparts⟩ := Option.map_eq_some_iff.1 (hitem script hscript)
    obtain ⟨rfl, rfl, hread⟩ := by simpa using hparts
    refine ⟨out, made, rfl, hmade, ?_⟩
    have hmem := himports _ _ _ _ _ _ (List.mem_of_head? hhead) (by decide +kernel)
    rwa [hread] at hmem

/-- A script of markup requires its helpers. -/
theorem script_requires_runtime : (transpile "const a = <b />;" {}).toOption =
    some ("var _reactJsxRuntime = require(\"react/jsx-runtime\");\n" ++
      "const a = /* @__PURE__ */ _reactJsxRuntime.jsx(\"b\", {});\n") := by
  decide +kernel

end LiveNotes.Transpile
