import LiveNotes.Proofs.Bundle.Taking
import LiveNotes.Proofs.Script.Grammar.Bodies

/-! The names that an import binds: read from the registry of the page, and linked in a chunk. The analysis of a module
writes a name for all of another module as the import of `*`, which a module may export as well. -/

namespace LiveNotes.Script.Taken

/-- The name of a property and the name bound to it. -/
def pair? (t : Taken) : Option (String × String) := t.property.map fun p => (p, t.name)

/-- The name bound to all of a value. -/
def whole? (t : Taken) : Option String := if t.property.isNone then some t.name else none

/-- The same, but that the property `*` stands for the value itself. -/
def linked (t : Taken) : Taken := ⟨t.name, if t.property = some "*" then none else t.property⟩

theorem perm_linked_iff {ts : List Taken} : (ts.map linked).Perm ts ↔ ∀ t ∈ ts, t.property ≠ some "*" := by
  constructor
  · intro hperm t ht hstar
    obtain ⟨u, -, rfl⟩ := List.mem_map.1 (hperm.mem_iff.2 ht)
    dsimp only [linked] at hstar
    split at hstar
    · contradiction
    · contradiction
  · intro hts
    have hsame : ts.map linked = ts.map id := List.map_congr_left fun t ht => by simp [linked, hts t ht]
    rw [hsame, List.map_id]

end LiveNotes.Script.Taken

namespace LiveNotes.Bundle

open Script Text Grammar Transpile

variable {ts : List Taken} {ks : List Tree} {k : Tree}

theorem part_cases (k : Tree) : (∃ imported x typeOnly, k.label = .importName imported x typeOnly) ∨
    (∃ x, k.label = .importDefault x) ∨ (∃ x, k.label = .importAll x) ∨
    (partTaken? k = none ∧ importProperty k = none ∧ importWhole k = none ∧ importName? k = none) := by
  unfold partTaken? importProperty importWhole importName?
  split
  · next h => exact .inl ⟨_, _, _, h⟩
  · next h => exact .inr (.inl ⟨_, h⟩)
  · next h => exact .inr (.inr (.inl ⟨_, h⟩))
  · refine .inr (.inr (.inr ?_))
    simp_all

/-! ### Patterns for what is taken -/

/-- One pattern for all properties, and one for each name of the whole. -/
def bindersOf (ts : List Taken) : List Binder :=
  (if (ts.filterMap Taken.pair?).isEmpty then [] else [.properties (ts.filterMap Taken.pair?)]) ++
    (ts.filterMap Taken.whole?).map .whole

theorem perm_taken_bindersOf (ts : List Taken) : ((bindersOf ts).flatMap Binder.taken).Perm ts := by
  have hpairs : (if (ts.filterMap Taken.pair?).isEmpty then [] else
      [Binder.properties (ts.filterMap Taken.pair?)]).flatMap Binder.taken = ts.filter (·.property.isSome) := by
    have hall : (ts.filterMap Taken.pair?).map (fun p => (⟨p.2, some p.1⟩ : Taken)) = ts.filter (·.property.isSome) := by
      rw [List.map_filterMap, ← List.filterMap_eq_filter]
      refine List.filterMap_congr fun t _ => ?_
      obtain ⟨name, property⟩ := t
      cases property <;> rfl
    rw [← hall]
    cases ts.filterMap Taken.pair? with
    | nil => rfl
    | cons p ps => simp [Binder.taken]
  have hwhole : ((ts.filterMap Taken.whole?).map Binder.whole).flatMap Binder.taken =
      ts.filter fun t => !t.property.isSome := by
    have hall : (ts.filterMap Taken.whole?).map (fun x => (⟨x, none⟩ : Taken)) = ts.filter fun t => !t.property.isSome := by
      rw [List.map_filterMap, ← List.filterMap_eq_filter]
      refine List.filterMap_congr fun t _ => ?_
      obtain ⟨name, property⟩ := t
      cases property <;> rfl
    rw [← hall, List.flatMap_map, List.map_eq_flatMap]
    rfl
  rw [bindersOf, List.flatMap_append, hpairs, hwhole]
  exact List.filter_append_perm _ ts

theorem isWritten_bindersOf (hts : ∀ t ∈ ts, IsVariable t.name) : ∀ b ∈ bindersOf ts, b.IsWritten := by
  intro b hb
  rcases List.mem_append.1 hb with hb | hb
  · split at hb
    · contradiction
    · next hne =>
      obtain rfl := List.mem_singleton.1 hb
      refine ⟨by simpa using hne, fun p hp => ?_⟩
      obtain ⟨t, ht, hpair⟩ := List.mem_filterMap.1 hp
      obtain ⟨w, -, rfl⟩ := Option.map_eq_some_iff.1 hpair
      exact hts t ht
  · obtain ⟨x, hx, rfl⟩ := List.mem_map.1 hb
    obtain ⟨t, ht, hwhole⟩ := List.mem_filterMap.1 hx
    unfold Taken.whole? at hwhole
    split at hwhole
    · obtain rfl := Option.some.inj hwhole
      exact hts t ht
    · contradiction

/-! ### The two texts -/

theorem bindersText_bindersOf (target : String) (ts : List Taken) : bindersText target (bindersOf ts) =
    (let properties := (ts.filterMap Taken.pair?).map fun p => destructureProperty p.1 p.2
      let first := if properties.isEmpty then []
        else ["const \x7b " ++ ", ".intercalate properties ++ " \x7d = " ++ target ++ ";"]
      let others := (ts.filterMap Taken.whole?).map fun x => bindText x target
      if (first ++ others).isEmpty then target ++ ";" else " ".intercalate (first ++ others)) := by
  have hproperties : ∀ ps, bindingText target (.properties ps) = "const \x7b " ++
      ", ".intercalate (ps.map fun p => destructureProperty p.1 p.2) ++ " \x7d = " ++ target ++ ";" := by
    intro ps
    rw [← String.toList_inj]
    simp [bindingText, Binder.text]
  have hwhole : ∀ x, bindingText target (.whole x) = bindText x target := fun _ => rfl
  unfold bindersText bindersOf
  cases ts.filterMap Taken.pair? with
  | nil => simp [hwhole, Function.comp_def]
  | cons p ps => simp [hproperties, hwhole, Function.comp_def]

theorem registryRead_eq (hks : ∀ t ∈ ks.filterMap partTaken?, IsVariable t.name) (registry source : String) :
    registryRead registry source ks =
      bindersText (registryAccess registry source) (bindersOf (ks.filterMap partTaken?)) := by
  have hproperties : ks.filterMap importProperty =
      ((ks.filterMap partTaken?).filterMap Taken.pair?).map fun p => destructureProperty p.1 p.2 := by
    rw [List.filterMap_filterMap, List.map_filterMap]
    refine List.filterMap_congr fun k hk => ?_
    rcases part_cases k with ⟨imported, x, typeOnly, h⟩ | ⟨x, h⟩ | ⟨x, h⟩ | ⟨hpart, hproperty, -, -⟩
    · simp [importProperty, partTaken?, h, Taken.pair?]
    · have hpart : partTaken? k = some ⟨x, some "default"⟩ := by simp [partTaken?, h]
      have hx : x ≠ "default" := by
        rintro rfl
        exact absurd (hks _ (List.mem_filterMap.2 ⟨k, hk, hpart⟩)).unreserved (by decide)
      have hname : isIdentifierName "default" = true := by decide
      simp [importProperty, h, hpart, Taken.pair?, destructureProperty, hname, Ne.symm hx]
    · simp [importProperty, partTaken?, h, Taken.pair?]
    · simp [hpart, hproperty]
  have hwholes : ks.filterMap importWhole = (ks.filterMap partTaken?).filterMap Taken.whole? := by
    rw [List.filterMap_filterMap]
    refine List.filterMap_congr fun k _ => ?_
    rcases part_cases k with ⟨imported, x, typeOnly, h⟩ | ⟨x, h⟩ | ⟨x, h⟩ | ⟨hpart, -, hwhole, -⟩
    · simp [importWhole, partTaken?, h, Taken.whole?]
    · simp [importWhole, partTaken?, h, Taken.whole?]
    · simp [importWhole, partTaken?, h, Taken.whole?]
    · simp [hpart, hwhole]
  rw [bindersText_bindersOf, ← hproperties, ← hwholes]
  rfl

/-- What a name of an analysis stands for. -/
def ImportedName.taken (n : ImportedName) : Taken := ⟨n.here, if n.imported = "*" then none else some n.imported⟩

theorem importText_eq (target : String) (names : List ImportedName) :
    importText target names = bindersText target (bindersOf (names.map ImportedName.taken)) := by
  have hproperties : (names.filter (·.imported != "*")).map (fun n => destructureProperty n.imported n.here) =
      ((names.map ImportedName.taken).filterMap Taken.pair?).map fun p => destructureProperty p.1 p.2 := by
    rw [← List.filterMap_eq_filter, List.map_filterMap, List.filterMap_map, List.map_filterMap]
    refine List.filterMap_congr fun n _ => ?_
    by_cases hstar : n.imported = "*"
    · simp [ImportedName.taken, Taken.pair?, hstar]
    · simp [ImportedName.taken, Taken.pair?, hstar]
  have hwholes : (names.filter (·.imported == "*")).map (fun n => bindText n.here target) =
      ((names.map ImportedName.taken).filterMap Taken.whole?).map fun x => bindText x target := by
    rw [← List.filterMap_eq_filter, List.map_filterMap, List.filterMap_map, List.map_filterMap]
    refine List.filterMap_congr fun n _ => ?_
    by_cases hstar : n.imported = "*"
    · simp [ImportedName.taken, Taken.whole?, hstar]
    · simp [ImportedName.taken, Taken.whole?, hstar]
  rw [bindersText_bindersOf, ← hproperties, ← hwholes]
  rfl

theorem taken_importNames (ks : List Tree) :
    (ks.filterMap importName?).map ImportedName.taken = (ks.filterMap partTaken?).map Taken.linked := by
  rw [List.map_filterMap, List.map_filterMap]
  refine List.filterMap_congr fun k _ => ?_
  rcases part_cases k with ⟨imported, x, typeOnly, h⟩ | ⟨x, h⟩ | ⟨x, h⟩ | ⟨hpart, -, -, hname⟩
  · simp [importName?, partTaken?, h, ImportedName.taken, Taken.linked]
  · simp [importName?, partTaken?, h, ImportedName.taken, Taken.linked]
  · simp [importName?, partTaken?, h, ImportedName.taken, Taken.linked]
  · simp [hpart, hname]

/-- The names that an import of a module binds are its variables. -/
theorem isVariable_of_parse {code : String} {script : Program} {phase : ImportPhase} {specifier : String}
    {bare typeOnly : Bool} {span : Span} (hscript : parse .plainModule code = some script)
    (hitem : .node (.importDecl phase specifier bare typeOnly) span ks ∈ script.tree.kids) :
    ∀ t ∈ ks.filterMap partTaken?, IsVariable t.name := by
  intro t ht
  obtain ⟨k, hk, htaken⟩ := List.mem_filterMap.1 ht
  exact importsVariables_parse hscript _ hitem rfl k hk t htaken

/-- For every import of a module, both ways bind its names to the same properties, and only a name of the whole module to
all of it, if and only if no name `*` is imported in quotes: what is read from the registry is always what the import
says. -/
theorem names_alike_iff {code : String} {script : Program} {phase : ImportPhase} {specifier : String}
    {bare typeOnly : Bool} {span : Span} (hscript : parse .plainModule code = some script)
    (hitem : .node (.importDecl phase specifier bare typeOnly) span ks ∈ script.tree.kids)
    {registry : String} {tokens : List TokenKind} {value : Tree}
    (hregistry : IsExpression (registryAccess registry specifier) tokens value) (g : ModuleGraph) (importer : String)
    (l : Linked) :
    ∃ registered linked text,
      taken? value (registryRead registry specifier ks) = some registered ∧
      registered.Perm (ks.filterMap partTaken?) ∧
      ((itemAnalysis code.toList (.node (.importDecl phase specifier bare typeOnly) span ks)).items.foldl
        (Linked.add g importer) l).edits = l.edits ++ [⟨span.start, span.stop, text⟩] ∧
      taken? (g.targetValue importer specifier l.externals) text = some linked ∧
      (linked.Perm registered ↔ ∀ t ∈ ks.filterMap partTaken?, t.property ≠ some "*") := by
  have hks := isVariable_of_parse hscript hitem
  obtain ⟨targetTokens, htarget⟩ := isExpression_target g importer specifier l.externals
  have hlinked : ∀ t ∈ (ks.filterMap partTaken?).map Taken.linked, IsVariable t.name := by
    intro t ht
    obtain ⟨u, hu, rfl⟩ := List.mem_map.1 ht
    exact hks u hu
  have hregistered := perm_taken_bindersOf (ks.filterMap partTaken?)
  have hperm := perm_taken_bindersOf ((ks.filterMap partTaken?).map Taken.linked)
  have hread := taken?_bindersText hregistry (isWritten_bindersOf hks)
  rw [← registryRead_eq hks] at hread
  have hlink := taken?_bindersText htarget (isWritten_bindersOf hlinked)
  rw [← taken_importNames] at hlink hperm
  rw [← importText_eq] at hlink
  refine ⟨_, _, _, hread, hregistered, rfl, hlink, ?_⟩
  rw [hregistered.congr_right, hperm.congr_left, taken_importNames]
  exact Taken.perm_linked_iff

/-- A default, a name in quotes and one that is renamed. -/
abbrev threeNames : String := "import x, \x7b \x22a-b\x22 as y, c as z \x7d from \x22a\x22;"

abbrev threeParts : List Tree :=
  [.node (.importDefault "x") ⟨7, 8⟩ [], .node (.importName ⟨"a-b", true⟩ "y" false) ⟨12, 22⟩ [],
    .node (.importName ⟨"c", false⟩ "z" false) ⟨24, 30⟩ []]

theorem names_alike_iff_three : ∃ registered linked text,
    taken? (registryValue "window" ["_livedocModules"] "a") (registryRead "window._livedocModules" "a" threeParts) =
      some registered ∧
    registered.Perm [⟨"x", some "default"⟩, ⟨"y", some "a-b"⟩, ⟨"z", some "c"⟩] ∧
    ((itemAnalysis threeNames.toList (.node (.importDecl .evaluation "a" false false) ⟨0, 42⟩ threeParts)).items.foldl
      (Linked.add {} "m") { getters := [], externals := [] }).edits = [⟨0, 42, text⟩] ∧
    taken? (externalValue 0) text = some linked ∧ linked.Perm registered := by
  obtain ⟨script, hscript⟩ := Option.isSome_iff_exists.1 (by decide +kernel : (parse .plainModule threeNames).isSome = true)
  have hitem : ∀ script ∈ parse .plainModule threeNames,
      .node (.importDecl .evaluation "a" false false) ⟨0, 42⟩ threeParts ∈ script.tree.kids := by decide +kernel
  have hlocal : IsLocal "window" := ⟨by decide, by decide⟩
  have hmembers : ∀ v ∈ ["_livedocModules"], isIdentifierName v = true := by decide
  have hregistry := isExpression_registry hlocal (by decide) (by decide) (by decide) hmembers "a"
  have hpath : ".".intercalate ["window", "_livedocModules"] = "window._livedocModules" := by decide
  rw [hpath] at hregistry
  obtain ⟨registered, linked, text, hread, hregistered, htext, hlink, hiff⟩ :=
    names_alike_iff hscript (hitem script hscript) hregistry {} "m" { getters := [], externals := [] }
  exact ⟨registered, linked, text, hread, hregistered, htext, hlink, hiff.2 (by decide)⟩

/-- A module may export the name `*`. Read from the registry, its import in quotes is the value by that name; linked in a
chunk, it is the whole module. -/
theorem star_in_quotes : (parse .plainModule "import \x7b \x22*\x22 as x \x7d from \x22a\x22;").map (fun script =>
      script.tree.kids.map fun k =>
        (taken? (registryValue "window" ["_livedocModules"] "a") (registryRead "window._livedocModules" "a" k.kids),
          taken? (requireValue 1) (importText (requireText 1) (k.kids.filterMap importName?)))) =
    some [(some [⟨"x", some "*"⟩], some [⟨"x", none⟩])] := by
  decide +kernel

end LiveNotes.Bundle
