import LiveNotes.Proofs.Bundle.ImportNames
import LiveNotes.Proofs.Bundle.Link
import LiveNotes.Proofs.Bundle.ReadBack
import LiveNotes.Proofs.Edit
import LiveNotes.Proofs.Numbered
import Mathlib.Algebra.GroupWithZero.Nat

/-! The names that the wrapper of a module declares: its parameters, the names of imports, variables for modules
that names are taken from and for an exported expression, and the declarations that are exported. The variables
are numbered without a look at the other names, so these are distinct exactly when the module itself uses none of
the names that are made up. -/

namespace LiveNotes.Bundle

open Script Text Grammar

variable {code id : String} {a : Analysis} {script : Program} {items : List LinkItem} {item : LinkItem}
  {kids : List Tree}

/-- How many modules an item binds to new variables. -/
def LinkKind.bound : LinkKind → Nat
  | .reExport _ _ | .exportStar _ (some _) => 1
  | _ => 0

/-- The names that the text for an item binds, when `sources` modules were bound in front of it. -/
def LinkKind.binds (sources : Nat) : LinkKind → List String
  | .importNames _ names => names.map (·.here)
  | .reExport _ _ | .exportStar _ (some _) => [reExportName sources]
  | .defaultExpr _ => [defaultBinding]
  | _ => []

def LinkKind.isDefault : LinkKind → Bool
  | .defaultExpr _ => true
  | _ => false

def bindsOf (sources : Nat) : List LinkItem → List String
  | [] => []
  | item :: items => item.kind.binds sources ++ bindsOf (sources + item.kind.bound) items

/-- The names that imports bind, from the items for them. -/
def LinkKind.importedHere : LinkKind → List String
  | .importNames _ names => names.map (·.here)
  | _ => []

/-- The local names of an import. -/
def importLocals : Tree → List String
  | .node (.importDecl ..) _ ks => ks.filterMap importedName
  | _ => []

/-- The names of a declaration that is exported where it stands. -/
def exportedHere : Tree → List String
  | .node .exportDecl _ [d] => declaredNames d
  | .node .exportDefault _ [d] => declaredNames d
  | _ => []

def wrapperParameters : List String := ["module", "exports", "__require"]

/-- The names in a wrapper that no module chose: of an exported expression and of modules that names are taken
from. -/
def Analysis.madeUp (a : Analysis) : List String :=
  ((a.items.filter (·.kind.isDefault)).map fun _ => defaultBinding) ++
    (List.range (a.items.map (·.kind.bound)).sum).map reExportName

/-- The names that a module chose for what it imports and for declarations that it exports. -/
def chosenNames (script : Program) : List String :=
  script.tree.kids.flatMap importLocals ++ script.tree.kids.flatMap exportedHere

/-- The names that the wrapper of a module declares. -/
def wrapperNames (a : Analysis) (script : Program) : List String :=
  wrapperParameters ++ (bindsOf 0 a.items ++ script.tree.kids.flatMap exportedHere)

/-! ### Names that are made up -/

theorem reExportName_injective : Function.Injective reExportName :=
  (append_injective "__re").comp toString_injective

/-- The third character tells the variables for modules from `__require` by what is behind it. -/
theorem reExportName_not_mem (n : Nat) : reExportName n ∉ defaultBinding :: wrapperParameters := by
  have hlast : ∃ c, (reExportName n).toList.getLast? = some c ∧ c.isDigit = true := by
    have hne : (toString n).toList ≠ [] := fun h => toString_ne_empty n (String.toList_injective h)
    refine ⟨(toString n).toList.getLast hne, ?_, isDigit_of_mem_toString (List.getLast_mem hne)⟩
    rw [reExportName, String.toList_append, List.getLast?_append_of_ne_nil _ hne, List.getLast?_eq_some_getLast hne]
  have hnames : ∀ w ∈ defaultBinding :: wrapperParameters, w.toList.getLast?.any Char.isDigit = false := by decide
  intro hmem
  obtain ⟨c, hc, hdigit⟩ := hlast
  have hnone := hnames _ hmem
  rw [hc, Option.any_some, hdigit] at hnone
  contradiction

/-! ### What the parser makes sure of -/

theorem nodup_of_hasDuplicates {names : List String} (h : hasDuplicates names = false) : names.Nodup := by
  induction names with
  | nil => exact .nil
  | cons name names ih =>
    rw [hasDuplicates, Bool.or_eq_false_iff, Bool.eq_false_iff, Ne, List.contains_iff_mem] at h
    exact List.nodup_cons.2 ⟨h.1, ih h.2⟩

theorem nodup_exportedNames_parse (h : parse .plainModule code = some script) :
    (script.tree.kids.flatMap exportedNames).Nodup := by
  have hchecked {t : Tree} {c : Cursor} {isModule : Bool} (h : checked .plainModule isModule t c = some script) :
      (script.tree.kids.flatMap exportedNames).Nodup := by
    unfold checked at h
    split at h
    · contradiction
    · next hgood =>
      obtain rfl := Option.some.inj h
      refine nodup_of_hasDuplicates ?_
      simp only [isFaulty, Bool.or_eq_true, not_or] at hgood
      exact (by simpa using hgood.2.2 : SourceKind.plainModule.dialect.types = false → _) rfl
  rw [parse, parseText] at h
  split at h
  · contradiction
  · dsimp only at h
    split at h
    · obtain ⟨⟨t, c⟩, -, h⟩ := Option.bind_eq_some_iff.1 h
      exact hchecked h
    · exact hchecked h

/-! ### The items of a module -/

theorem items_append (a b : Analysis) : (a ++ b).items = a.items ++ b.items := rfl

theorem items_foldl (source : List Char) (ts : List Tree) (a : Analysis) :
    (ts.foldl (fun a t => a ++ itemAnalysis source t) a).items =
      a.items ++ ts.flatMap fun t => (itemAnalysis source t).items := by
  induction ts generalizing a with
  | nil => exact (List.append_nil _).symm
  | cons t ts ih => rw [List.foldl_cons, ih, items_append, List.flatMap_cons, List.append_assoc]

theorem exists_of_analyze (h : analyze code id = .ok a) : ∃ script, parse .plainModule code = some script ∧
    a.items = (script.tree.kids.flatMap fun t => (itemAnalysis code.toList t).items) ++
      (dynamicAnalysis (dynamicImports script.tree)).items := by
  unfold analyze at h
  split at h
  · contradiction
  · next script hscript =>
    obtain rfl := Except.ok.inj h
    refine ⟨script, hscript, ?_⟩
    rw [items_append, items_foldl]
    rfl

theorem here_importNames (ks : List Tree) : (ks.filterMap importName?).map (·.here) = ks.filterMap importedName := by
  rw [List.map_filterMap]
  refine List.filterMap_congr fun k _ => ?_
  unfold importName? importedName
  split <;> simp_all

theorem importedHere_itemAnalysis (source : List Char) (t : Tree) :
    ((itemAnalysis source t).items.flatMap fun item => item.kind.importedHere) = importLocals t := by
  unfold itemAnalysis
  split
  · simp [linked, LinkKind.importedHere, importLocals, here_importNames]
  · rfl
  · rfl
  · rfl
  · unfold defaultExport
    split <;> rfl
  · rfl
  · next himport _ _ _ _ _ =>
    unfold importLocals
    split
    · exact (himport _ _ _ _ _ _ rfl).elim
    · rfl

/-- A module exports at most one expression. -/
theorem countP_isDefault_itemAnalysis (source : List Char) (t : Tree) :
    (itemAnalysis source t).items.countP (·.kind.isDefault) ≤ (exportedNames t).count "default" := by
  unfold itemAnalysis
  split
  · exact Nat.zero_le _
  · exact Nat.zero_le _
  · exact Nat.zero_le _
  · exact Nat.zero_le _
  · unfold defaultExport
    split
    · exact Nat.zero_le _
    · exact Nat.le_refl 1
  · exact Nat.zero_le _
  · exact Nat.zero_le _

theorem countP_flatMap_le {f : Tree → List LinkItem} {g : Tree → List String} {p : LinkItem → Bool} {x : String}
    (h : ∀ t, (f t).countP p ≤ (g t).count x) (ts : List Tree) : (ts.flatMap f).countP p ≤ (ts.flatMap g).count x := by
  induction ts with
  | nil => exact Nat.le_refl 0
  | cons t ts ih =>
    rw [List.flatMap_cons, List.flatMap_cons, List.countP_append, List.count_append]
    exact Nat.add_le_add (h t) ih

theorem countP_isDefault_le (hscript : parse .plainModule code = some script) {calls : List (Span × String)}
    (hitems : a.items = (script.tree.kids.flatMap fun t => (itemAnalysis code.toList t).items) ++
      (dynamicAnalysis calls).items) : a.items.countP (·.kind.isDefault) ≤ 1 := by
  have hcalls : (dynamicAnalysis calls).items.countP (·.kind.isDefault) = 0 := by
    refine List.countP_eq_zero.2 fun item hitem => ?_
    obtain ⟨call, -, rfl⟩ := List.mem_map.1 hitem
    exact Bool.false_ne_true
  rw [hitems, List.countP_append, hcalls]
  refine Nat.le_trans (countP_flatMap_le (countP_isDefault_itemAnalysis code.toList) _) ?_
  exact List.nodup_iff_count_le_one.1 (nodup_exportedNames_parse hscript) "default"

/-! ### The names in a wrapper -/

theorem perm_binds (sources : Nat) (kind : LinkKind) : (kind.binds sources).Perm
    ((if kind.isDefault then [defaultBinding] else []) ++ (List.range' sources kind.bound).map reExportName ++
      kind.importedHere) := by
  rcases kind with _ | _ | ⟨_, _ | _⟩ | _ | _ | _ <;> exact .refl _

theorem perm_bindsOf (sources : Nat) (items : List LinkItem) :
    (bindsOf sources items).Perm (((items.filter (·.kind.isDefault)).map fun _ => defaultBinding) ++
      (List.range' sources (items.map (·.kind.bound)).sum).map reExportName ++
        items.flatMap (·.kind.importedHere)) := by
  induction items generalizing sources with
  | nil => exact .refl _
  | cons item items ih =>
    rw [List.perm_iff_count]
    intro x
    have hitem := (perm_binds sources item.kind).count_eq x
    have hrest := (ih (sources + item.kind.bound)).count_eq x
    have hfilter : ((item :: items).filter (·.kind.isDefault)).map (fun _ => defaultBinding) =
        (if item.kind.isDefault then [defaultBinding] else []) ++
          (items.filter (·.kind.isDefault)).map fun _ => defaultBinding := by
      rw [List.filter_cons]
      split <;> rfl
    simp only [List.count_append] at hitem hrest
    rw [bindsOf, hfilter, List.map_cons, List.sum_cons, ← List.range'_append_1, List.map_append, List.flatMap_cons]
    simp only [List.count_append]
    omega

theorem importedHere_items {calls : List (Span × String)}
    (hitems : a.items = (kids.flatMap fun t => (itemAnalysis code.toList t).items) ++ (dynamicAnalysis calls).items) :
    a.items.flatMap (·.kind.importedHere) = kids.flatMap importLocals := by
  have hcalls : (dynamicAnalysis calls).items.flatMap (·.kind.importedHere) = [] := by
    refine List.flatMap_eq_nil_iff.2 fun item hitem => ?_
    obtain ⟨call, -, rfl⟩ := List.mem_map.1 hitem
    rfl
  rw [hitems, List.flatMap_append, hcalls, List.append_nil, List.flatMap_assoc]
  exact List.flatMap_congr fun t _ => importedHere_itemAnalysis _ t

theorem nodup_madeUp (h : a.items.countP (·.kind.isDefault) ≤ 1) : (wrapperParameters ++ a.madeUp).Nodup := by
  have hsources : ((List.range (a.items.map (·.kind.bound)).sum).map reExportName).Nodup :=
    List.Nodup.map reExportName_injective List.nodup_range
  have hdefault : ((a.items.filter (·.kind.isDefault)).map fun _ => defaultBinding).Nodup ∧
      ∀ x ∈ (a.items.filter (·.kind.isDefault)).map fun _ => defaultBinding, x = defaultBinding := by
    rw [List.map_const', ← List.countP_eq_length_filter]
    exact ⟨List.nodup_replicate.2 h, fun x hx => List.eq_of_mem_replicate hx⟩
  have hnone : ∀ x ∈ (List.range (a.items.map (·.kind.bound)).sum).map reExportName,
      x ∉ defaultBinding :: wrapperParameters := by
    intro x hx
    obtain ⟨n, -, rfl⟩ := List.mem_map.1 hx
    exact reExportName_not_mem n
  have hparameters : wrapperParameters.Nodup ∧ defaultBinding ∉ wrapperParameters := by decide
  unfold Analysis.madeUp
  refine List.nodup_append'.2 ⟨hparameters.1, List.nodup_append'.2 ⟨hdefault.1, hsources, ?_⟩, ?_⟩
  · intro x hx hx'
    exact hnone x hx' (List.mem_cons.2 (Or.inl (hdefault.2 x hx)))
  · intro x hx hx'
    rcases List.mem_append.1 hx' with hx' | hx'
    · exact hparameters.2 (hdefault.2 x hx' ▸ hx)
    · exact hnone x hx' (List.mem_cons_of_mem _ hx)

theorem nodup_names_iff (hscript : parse .plainModule code = some script) {calls : List (Span × String)}
    (hitems : a.items = (script.tree.kids.flatMap fun t => (itemAnalysis code.toList t).items) ++
      (dynamicAnalysis calls).items) :
    (wrapperNames a script).Nodup ↔
      (chosenNames script).Nodup ∧ ∀ x ∈ chosenNames script, x ∉ wrapperParameters ∧ x ∉ a.madeUp := by
  -- items bind made-up and chosen names by turns, so these are sorted first: only a name of both can clash
  have hperm : (wrapperNames a script).Perm ((wrapperParameters ++ a.madeUp) ++ chosenNames script) := by
    have hbinds := perm_bindsOf 0 a.items
    rw [importedHere_items hitems, ← List.range_eq_range'] at hbinds
    have hall := (hbinds.append_right (script.tree.kids.flatMap exportedHere)).append_left wrapperParameters
    refine hall.trans (.of_eq ?_)
    simp only [Analysis.madeUp, chosenNames, List.append_assoc]
  rw [hperm.nodup_iff, List.nodup_append']
  have hmade := nodup_madeUp (countP_isDefault_le hscript hitems)
  constructor
  · rintro ⟨-, hchosen, hdisjoint⟩
    refine ⟨hchosen, fun x hx => ⟨fun hp => ?_, fun hm => ?_⟩⟩
    · exact hdisjoint (List.mem_append_left _ hp) hx
    · exact hdisjoint (List.mem_append_right _ hm) hx
  · rintro ⟨hchosen, hclear⟩
    refine ⟨hmade, hchosen, fun x hx hx' => ?_⟩
    rcases List.mem_append.1 hx with hx | hx
    · exact (hclear x hx').1 hx
    · exact (hclear x hx').2 hx

/-! ### What the texts of items bind -/

/-- Words that declare a name. -/
def declaringWords : List String := ["const", "let", "var", "function", "class", "import"]

/-- A text binds names: read as statements, or as the front of one that any expression completes. Calls bind
none. -/
inductive Binds : String → List String → Prop
  | statements {text : String} {value : Tree} {taken : List Taken} {names : List String} :
      taken? value text = some taken → (taken.map (·.name)).Perm names → Binds text names
  | front {text name : String} : (∀ source tokens value, IsExpression source tokens value →
      taken? value (text ++ source ++ ";") = some [⟨name, none⟩]) → Binds text [name]
  | calls {text : String} {tokens : List TokenKind} : Lexes text.toList tokens [] →
      (∀ w ∈ declaringWords, .word w false ∉ tokens) → Binds text []

theorem isVariable_of_underscore {x : String} (hname : isIdentifierName x = true)
    (h : x.toList.head? = some '_') : IsVariable x where
  name := hname
  unreserved := (isLocal_of_underscore h).1
  free := by
    rintro rfl
    exact absurd h (by decide)

theorem isVariable_reExportName (n : Nat) : IsVariable (reExportName n) :=
  isVariable_of_underscore (isIdentifierName_append_toString (by decide) n) (by simp [reExportName])

theorem taken?_bindText {target x : String} {tokens : List TokenKind} {value : Tree} (hx : IsVariable x)
    (h : IsExpression target tokens value) : taken? value (bindText x target) = some [⟨x, none⟩] := by
  have hbs : ∀ b ∈ [Binder.whole x], b.IsWritten := List.forall_mem_singleton.2 hx
  have hall := taken?_bindersText h hbs
  have htext : bindersText target [.whole x] = bindText x target := rfl
  rwa [htext] at hall

theorem binds_bindText {target : String} {tokens : List TokenKind} {value : Tree} (n : Nat)
    (h : IsExpression target tokens value) : Binds (bindText (reExportName n) target) [reExportName n] :=
  .statements (taken?_bindText (isVariable_reExportName n) h) (.refl _)

theorem binds_importText {target : String} {tokens : List TokenKind} {value : Tree} {names : List ImportedName}
    (hnames : ∀ n ∈ names, IsVariable n.here) (h : IsExpression target tokens value) :
    Binds (importText target names) (names.map (·.here)) := by
  have hvariables : ∀ t ∈ names.map ImportedName.taken, IsVariable t.name := by
    intro t ht
    obtain ⟨n, hn, rfl⟩ := List.mem_map.1 ht
    exact hnames n hn
  have hread := taken?_bindersText h (isWritten_bindersOf hvariables)
  rw [← importText_eq] at hread
  refine .statements hread ?_
  have hperm := (perm_taken_bindersOf (names.map ImportedName.taken)).map (·.name)
  rwa [List.map_map] at hperm

theorem binds_default : Binds ("const " ++ defaultBinding ++ " = ") [defaultBinding] := by
  refine .front fun source tokens value h => ?_
  exact taken?_bindText (by decide) h

theorem lexes_requireText (gap : Gap) (index : Nat) (rest : List Char) :
    Lexes (gap.text ++ ((requireText index).toList ++ rest))
      [.word "__require" false, .punct .leftParen, .number (toString index), .punct .rightParen] rest := by
  have hindex : EndsNumber (')' :: rest) := by
    intro c hc
    cases hc
    decide
  have harguments := Lexes.token .none (startsWith_number index hindex)
    (Lexes.token .none (startsWith_punct (c := ')') (by decide) (by decide) rfl) (.done rest))
  have hall := Lexes.word gap (w := "__require") (by decide) (endsWord_cons (by decide) _)
    (Lexes.token .none (startsWith_punct (c := '(') (by decide) (by decide) rfl) harguments)
  simpa [requireText, Gap.text] using hall

theorem exists_lexes_target (g : ModuleGraph) (importer specifier : String) (externals : List String) :
    ∃ tokens, (∀ w ∈ declaringWords, .word w false ∉ tokens) ∧ ∀ (gap : Gap) (rest : List Char), EndsWord rest →
      Lexes (gap.text ++ ((g.target importer specifier externals).1.toList ++ rest)) tokens rest := by
  obtain ⟨k, -, htext⟩ | ⟨-, n, htext⟩ := g.target_cases importer specifier externals
  · rw [htext]
    refine ⟨_, ?_, fun gap rest _ => lexes_requireText gap k rest⟩
    simp [declaringWords]
  · rw [htext]
    refine ⟨[.word (externalName n) false], fun w hw hmem => ?_, fun gap rest hrest => ?_⟩
    · obtain rfl : w = externalName n := by simpa using hmem
      have hhead : ∀ w ∈ declaringWords, w.toList.head? ≠ some '_' := by decide
      exact hhead _ hw (by simp [externalName])
    · exact Lexes.word gap (isIdentifierName_append_toString (by decide) n) hrest (.done rest)

theorem binds_star (g : ModuleGraph) (importer specifier : String) (externals : List String) :
    Binds ("__exportStar(exports, " ++ (g.target importer specifier externals).1 ++ ");") [] := by
  obtain ⟨tokens, hwords, htarget⟩ := exists_lexes_target g importer specifier externals
  have hend : Lexes [')', ';'] [.punct .rightParen, .punct .semicolon] [] :=
    .token .none (startsWith_punct (c := ')') (by decide) (by decide) rfl) (lexes_end [])
  have harguments := Lexes.word .none (w := "exports") (by decide) (endsWord_cons (by decide) _)
    (.token .none (startsWith_punct (c := ',') (by decide) (by decide) rfl)
      ((htarget .space [')', ';'] (endsWord_cons (by decide) _)).append hend))
  have hall := Lexes.word .none (w := "__exportStar") (by decide) (endsWord_cons (by decide) _)
    (.token .none (startsWith_punct (c := '(') (by decide) (by decide) rfl) harguments)
  refine .calls (by simpa [Gap.text] using hall) fun w hw => ?_
  have hnone : w ≠ "__exportStar" ∧ w ≠ "exports" := by
    refine ⟨?_, ?_⟩ <;> rintro rfl <;> exact absurd hw (by decide)
  simpa [hnone] using hwords w hw

/-- An item is replaced by a text that binds its names. -/
structure Writes (g : ModuleGraph) (importer : String) (l : Linked) (item : LinkItem) (text : String)
    (more : List Edit) : Prop where
  edits : (l.add g importer item).edits = l.edits ++ ⟨item.span.start, item.span.stop, text⟩ :: more
  binds : Binds text (item.kind.binds l.sources)

theorem sources_add (g : ModuleGraph) (importer : String) (l : Linked) (item : LinkItem) :
    (l.add g importer item).sources = l.sources + item.kind.bound := by
  obtain ⟨span, kind⟩ := item
  rcases kind with _ | _ | ⟨_, _ | _⟩ | ⟨_ | _⟩ | _ | specifier
  all_goals try rfl
  cases hk : g.resolve? importer specifier with
  | none => simp only [Linked.add, hk, LinkKind.bound, Nat.add_zero]
  | some k => simp only [Linked.add, hk, LinkKind.bound, Nat.add_zero, Linked.edit]

theorem exists_writes (g : ModuleGraph) (importer : String) (l : Linked) {item : LinkItem}
    (hstatic : item.kind.isDynamic = false)
    (hnames : ∀ specifier names, item.kind = .importNames specifier names → ∀ n ∈ names, IsVariable n.here) :
    ∃ text more, Writes g importer l item text more := by
  obtain ⟨span, kind⟩ := item
  cases kind with
  | importNames specifier names =>
    obtain ⟨tokens, htarget⟩ := isExpression_target g importer specifier l.externals
    exact ⟨_, [], rfl, binds_importText (hnames specifier names rfl) htarget⟩
  | reExport specifier names =>
    obtain ⟨tokens, htarget⟩ := isExpression_target g importer specifier l.externals
    exact ⟨_, [], rfl, binds_bindText l.sources htarget⟩
  | exportStar specifier asName =>
    obtain ⟨tokens, htarget⟩ := isExpression_target g importer specifier l.externals
    cases asName with
    | none => exact ⟨_, [], rfl, binds_star g importer specifier l.externals⟩
    | some name => exact ⟨_, [], rfl, binds_bindText l.sources htarget⟩
  | defaultExpr semicolon =>
    cases semicolon with
    | none => exact ⟨_, [], rfl, binds_default⟩
    | some at_ => exact ⟨_, [⟨at_, at_, ";"⟩], List.append_assoc .., binds_default⟩
  | remove => exact ⟨_, [], rfl, .calls (.done []) nofun⟩
  | dynamicImport specifier => contradiction

theorem exists_of_importNames {source : List Char} {t : Tree} (hitem : item ∈ (itemAnalysis source t).items)
    {specifier : String} {names : List ImportedName} (hkind : item.kind = .importNames specifier names) :
    ∃ phase bare typeOnly span ks, t = .node (.importDecl phase specifier bare typeOnly) span ks ∧
      names = ks.filterMap importName? := by
  unfold itemAnalysis at hitem
  split at hitem
  · obtain rfl := List.mem_singleton.1 hitem
    obtain ⟨rfl, rfl⟩ := LinkKind.importNames.inj hkind
    exact ⟨_, _, _, _, _, rfl, rfl⟩
  · obtain rfl := List.mem_singleton.1 hitem
    contradiction
  · obtain rfl := List.mem_singleton.1 hitem
    contradiction
  · obtain rfl := List.mem_singleton.1 hitem
    contradiction
  · unfold defaultExport at hitem
    split at hitem
    · obtain rfl := List.mem_singleton.1 hitem
      contradiction
    · obtain rfl := List.mem_singleton.1 hitem
      contradiction
  · obtain rfl := List.mem_singleton.1 hitem
    contradiction
  · contradiction

theorem isVariable_of_mem_items (hscript : parse .plainModule code = some script) {calls : List (Span × String)}
    (hitems : a.items = (script.tree.kids.flatMap fun t => (itemAnalysis code.toList t).items) ++
      (dynamicAnalysis calls).items) (hitem : item ∈ a.items) {specifier : String} {names : List ImportedName}
    (hkind : item.kind = .importNames specifier names) : ∀ n ∈ names, IsVariable n.here := by
  rw [hitems] at hitem
  rcases List.mem_append.1 hitem with hitem | hitem
  · obtain ⟨t, ht, hitem⟩ := List.mem_flatMap.1 hitem
    obtain ⟨phase, bare, typeOnly, span, ks, rfl, rfl⟩ := exists_of_importNames hitem hkind
    intro n hn
    have htaken : n.taken ∈ (ks.filterMap partTaken?).map Taken.linked := by
      rw [← taken_importNames]
      exact List.mem_map_of_mem hn
    obtain ⟨u, hu, hlinked⟩ := List.mem_map.1 htaken
    have hname : u.name = n.here := congrArg Taken.name hlinked
    exact hname ▸ isVariable_of_parse hscript ht u hu
  · obtain ⟨call, -, rfl⟩ := List.mem_map.1 hitem
    contradiction

/-- The wrapper of a module that is analyzed is a function with the parameters, in which each item but for a call
is replaced by a text that binds its names. With the declarations that are exported, all names are distinct
exactly when the module chose distinct names and none of them is a parameter or made up. -/
theorem wrapperNames_nodup_iff (h : analyze code id = .ok a) : ∃ script, parse .plainModule code = some script ∧
    (∀ (g : ModuleGraph) (i : Nat) (externals : List String), g.get? i = some ⟨id, code, a⟩ → ∃ head body,
      (g.moduleText externals i).1 =
        head ++ "function (" ++ ", ".intercalate wrapperParameters ++ ") \x7b\n" ++ body) ∧
    (∀ (g : ModuleGraph) (l : Linked), ∀ item ∈ a.items, (l.add g id item).sources = l.sources + item.kind.bound ∧
      (item.kind.isDynamic = false → ∃ text more, Writes g id l item text more)) ∧
    ((wrapperNames a script).Nodup ↔
      (chosenNames script).Nodup ∧ ∀ x ∈ chosenNames script, x ∉ wrapperParameters ∧ x ∉ a.madeUp) := by
  obtain ⟨script, hscript, hitems⟩ := exists_of_analyze h
  refine ⟨script, hscript, fun g i externals hm => ?_, fun g l item hitem => ?_, nodup_names_iff hscript hitems⟩
  · have hparameters : ", ".intercalate wrapperParameters = "module, exports, __require" := by decide
    obtain ⟨m, externals, body, -, -, htext⟩ := ModuleGraph.wraps_moduleText hm externals
    refine ⟨"// " ++ displayId m.id ++ "\n__modules[" ++ toString i ++ "] = ",
      gettersText (g.link externals m).getters ++ String.ofList body ++ "\n\x7d;\n", ?_⟩
    rw [htext, hparameters, ← String.toList_inj]
    simp only [String.toList_append, List.append_assoc]
    rfl
  · refine ⟨sources_add g id l item, fun hstatic => ?_⟩
    exact exists_writes g id l hstatic fun _ _ hkind => isVariable_of_mem_items hscript hitems hitem hkind

/-- An import, a name of another module, a declaration and an expression. -/
abbrev fourNames : String := "import x from \x22./a.js\x22;\nexport \x7b y \x7d from \x22./a.js\x22;\n" ++
  "export const z = x;\nexport default z;"

theorem eq_ok_of_toOption {ε α : Type} {e : Except ε α} {v : α} (h : e.toOption = some v) : e = .ok v := by
  cases e with
  | error _ => contradiction
  | ok _ => exact congrArg Except.ok (Option.some.inj h)

theorem wrapperNames_nodup_iff_fourNames : ∃ a script, analyze fourNames "index.js" = .ok a ∧
    parse .plainModule fourNames = some script ∧ chosenNames script = ["x", "z"] ∧
    a.madeUp = ["__default", "__re0"] ∧ (wrapperNames a script).Nodup := by
  obtain ⟨a, ha⟩ := Option.isSome_iff_exists.1
    (by decide +kernel : (analyze fourNames "index.js").toOption.isSome = true)
  have ha := eq_ok_of_toOption ha
  obtain ⟨script, hscript, -, -, hiff⟩ := wrapperNames_nodup_iff ha
  have hchosen : (parse .plainModule fourNames).map chosenNames = some ["x", "z"] := by decide +kernel
  have hmade : (analyze fourNames "index.js").toOption.map Analysis.madeUp = some ["__default", "__re0"] := by
    decide +kernel
  rw [hscript, Option.map_some, Option.some.injEq] at hchosen
  rw [ha] at hmade
  have hmade : a.madeUp = ["__default", "__re0"] := Option.some.inj hmade
  refine ⟨a, script, ha, hscript, hchosen, hmade, hiff.2 ?_⟩
  rw [hchosen, hmade]
  decide

/-- A module that exports a constant by the name of the first variable for a module, and takes a name from
another one. -/
def sameName : Module :=
  ⟨"index.js", "export const __re0 = 1;\nexport \x7b a \x7d from \x22./a.js\x22;", {
    imports := [⟨"./a.js", false, [⟨"a", "a"⟩]⟩]
    items := [⟨⟨0, 7⟩, .remove⟩, ⟨⟨24, 51⟩, .reExport "./a.js" [⟨"a", "a"⟩]⟩]
    exports := [("__re0", "__re0")] }⟩

def sameNameGraph : ModuleGraph where
  modules := [sameName, ⟨"a.js", "export const a = 1;", { items := [⟨⟨0, 7⟩, .remove⟩], exports := [("a", "a")] }⟩]
  edges := [⟨"index.js", "./a.js", "a.js", false⟩]

/-- The module chose one name, and its wrapper declares it twice. -/
theorem not_nodup_sameName :
    (∀ m ∈ sameNameGraph.modules, analyze m.source m.id = .ok m.analysis) ∧
    ∃ script, parse .plainModule sameName.source = some script ∧ (chosenNames script).Nodup ∧
      ¬ (wrapperNames sameName.analysis script).Nodup ∧ (sameNameGraph.moduleText [] 0).1 =
        "// index.js\n__modules[0] = function (module, exports, __require) \x7b\n" ++
        "__export(exports, \x7b \x22__re0\x22: () => __re0, \x22a\x22: () => __re0[\x22a\x22] \x7d);\n" ++
        "const __re0 = 1;\nconst __re0 = __require(1);\n\x7d;\n" := by
  have hanalyzed : ∀ m ∈ sameNameGraph.modules, (analyze m.source m.id).toOption = some m.analysis := by
    decide +kernel
  have hnames : (parse .plainModule sameName.source).map (fun script =>
      (chosenNames script, wrapperNames sameName.analysis script)) =
        some (["__re0"], ["module", "exports", "__require", "__re0", "__re0"]) := by decide +kernel
  obtain ⟨script, hscript, hboth⟩ := Option.map_eq_some_iff.1 hnames
  obtain ⟨hchosen, hall⟩ := Prod.mk.inj hboth
  have hbody : Edit.apply sameName.source (sameNameGraph.link [] sameName).edits =
      "const __re0 = 1;\nconst __re0 = __require(1);" := by
    rw [Edit.apply_of_pairwise (by decide +kernel)]
    decide +kernel
  have hmodule : sameNameGraph.get? 0 = some sameName := rfl
  refine ⟨fun m hm => eq_ok_of_toOption (hanalyzed m hm), script, hscript, ?_, ?_, ?_⟩
  · rw [hchosen]
    decide
  · rw [hall]
    decide
  · simp only [ModuleGraph.moduleText, hmodule, hbody]
    decide +kernel

end LiveNotes.Bundle
