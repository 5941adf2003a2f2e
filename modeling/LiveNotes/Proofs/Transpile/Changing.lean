import LiveNotes.Proofs.Edit
import LiveNotes.Proofs.Script.Grammar.Programs
import LiveNotes.Proofs.Transpile.Visiting
import LiveNotes.Transpile

/-! The changes that give a script its surroundings, by the places in the script where they are made. -/

namespace LiveNotes.Transpile

open Script Text
open Script.Tree (marks marksAll)

variable {s : Surroundings} {e : Edit} {text : List Char} {t u k : Tree} {label : Label} {span : Span} {ks : List Tree}
  {i : Nat} {path front back : List Nat} {x : String}

/-! ### Where the edits are -/

/-- The part of the text that an edit replaces. -/
def editSpan (e : Edit) : Span := ⟨e.start, e.stop⟩

@[simp] theorem editSpan_mk (m : Span) (text : String) : editSpan ⟨m.start, m.stop, text⟩ = m := rfl

theorem lookupsAll_sublist {ts : List Tree} (h : ∀ t ∈ ts, ∀ s, ((lookups s t).map editSpan).Sublist (marks t))
    (s : Surroundings) : ((lookupsAll s ts).map editSpan).Sublist (marksAll ts) := by
  induction ts with
  | nil => simp [lookupsAll]
  | cons t ts ih =>
    rw [lookupsAll, List.map_append, marksAll]
    exact (h t List.mem_cons_self s).append (ih fun u hu => h u (List.mem_cons_of_mem t hu))

/-- Nothing is looked up in the key of a shorthand property. -/
theorem lookups_name (s : Surroundings) (w : String) (span : Span) : lookups s (.node (.name w) span []) = [] := rfl

theorem lookupsAll_sublist_node (h : Regular text (.node label span ks))
    (hks : ∀ k ∈ ks, ∀ s, ((lookups s k).map editSpan).Sublist (marks k)) (s : Surroundings)
    (himport : ∀ phase source bare typeOnly, label ≠ .importDecl phase source bare typeOnly) :
    ((lookupsAll s ks).map editSpan).Sublist (marks (.node label span ks)) := by
  cases hleaf : label.isLeaf with
  | true =>
    rcases h.leaf hleaf with rfl | ⟨_, _, _, _, rfl⟩
    · simp [lookupsAll]
    · exact absurd rfl (himport _ _ _ _)
  | false =>
    cases hshort : label.isShorthand with
    | false =>
      rw [marks_node hleaf hshort]
      exact lookupsAll_sublist hks s
    | true =>
      obtain ⟨w, s', v, rfl⟩ := h.key hshort
      rw [marks_shorthand hleaf hshort, lookupsAll, lookups_name, List.nil_append]
      exact lookupsAll_sublist (fun k hk => hks k (List.mem_cons_of_mem _ hk)) s

/-- A shorthand property that reads a name is where the name is. -/
theorem span_of_shorthand {kind : PropertyKind} {computed : Bool} {m : Span} {ks : List Tree}
    (h : Regular text (.node (.property kind computed true) span [k, .node (.read x) m ks])) : m = span := by
  obtain ⟨w, s', v, hparts, hv⟩ := h.fits
  obtain ⟨rfl, rfl⟩ := by simpa using hparts
  simpa [Label.identifier?] using hv

/-- The edits for a tree replace leaves of it, in their order. -/
theorem lookups_sublist (h : Regular text t) (s : Surroundings) : ((lookups s t).map editSpan).Sublist (marks t) := by
  induction t using Tree.induction generalizing s with
  | node label span ks ih =>
    have hks : ∀ k ∈ ks, ∀ s, ((lookups s k).map editSpan).Sublist (marks k) := fun k hk => ih k hk (h.kids k hk)
    have hif {b : Bool} {k : Tree} (hk : k ∈ ks) (s : Surroundings) :
        ((if b then [] else lookups s k).map editSpan).Sublist (marks k) := by
      cases b with
      | true => exact List.nil_sublist _
      | false => exact hks k hk s
    have hfits := h.fits
    rw [lookups.eq_def]
    dsimp only
    split
    · rw [marks_leaf rfl]
      cases s.lookup? _ with
      | none => exact List.nil_sublist _
      | some text => exact List.Sublist.refl _
    · rw [marks_leaf rfl]
      split
      · exact List.Sublist.refl _
      · exact List.nil_sublist _
    · split
      · obtain rfl := span_of_shorthand h
        rw [marks_shorthand rfl rfl, marksAll_singleton, marks_leaf rfl]
        cases s.lookup? _ with
        | none => exact List.nil_sublist _
        | some text => exact List.Sublist.refl _
      · exact lookupsAll_sublist_node h hks s (by simp)
    · split
      · exact List.nil_sublist _
      · exact lookupsAll_sublist_node h hks s (by simp)
    · obtain ⟨test, yes, no, rfl⟩ := List.length_eq_three.1 hfits
      rw [marks_node rfl rfl]
      dsimp only
      split
      · exact List.nil_sublist _
      · simp only [List.map_append, marksAll, List.append_nil, List.append_assoc]
        exact (hks test (by simp) s).append ((hif (by simp) s).append (hif (by simp) s))
    · cases ks with
      | nil => exact absurd rfl hfits
      | cons value cases =>
        rw [marks_node rfl rfl, marksAll, List.map_append]
        exact (hks value (by simp) s).append (lookupsAll_sublist (fun k hk => hks k (List.mem_cons_of_mem _ hk)) _)
    iterate 2
      obtain ⟨name, super, body, ds, rfl⟩ := exists_four hfits
      rw [marks_node rfl rfl]
      simp only [List.map_append, marksAll, List.append_nil, List.append_assoc]
      refine (hks name (by simp) _).append ((hks super (by simp) _).append ?_)
      exact (hks body (by simp) _).append (hks ds (by simp) _)
    · obtain ⟨params, body, rfl⟩ := List.length_eq_two.1 hfits
      rw [marks_node rfl rfl]
      simp only [List.map_append, marksAll, List.append_nil]
      exact (hks params (by simp) _).append (hks body (by simp) _)
    · next hread himport _ _ _ _ _ _ _ => exact lookupsAll_sublist_node h hks _ himport

/-! ### Where names stay -/

/-- The tree is the value of a property that its key names. -/
def IsShorthandValue (script : Tree) (path : List Nat) : Prop :=
  ∃ front kind computed span ks, path = front ++ [1] ∧
    script.at? front = some (.node (.property kind computed true) span ks)

/-- The test asks whether the name stands for anything: it compares its type with `"undefined"`. -/
inductive AsksFor (x : String) : Tree → Prop
  | left {op : BinaryOp} {span s m s' : Span} {ks ks' : List Tree} {surrogates : Bool}
      (hop : op ∈ [.equal, .notEqual, .strictEqual, .strictNotEqual]) :
      AsksFor x (.node (.binary op) span
        [.node (.unary .typeof) s [.node (.read x) m ks], .node (.string "undefined" surrogates) s' ks'])
  | right {op : BinaryOp} {span s m s' : Span} {ks ks' : List Tree} {surrogates : Bool}
      (hop : op ∈ [.equal, .notEqual, .strictEqual, .strictNotEqual]) :
      AsksFor x (.node (.binary op) span
        [.node (.string "undefined" surrogates) s' ks', .node (.unary .typeof) s [.node (.read x) m ks]])

/-- The text of the test starts with the lookup of a scope. -/
def StartsLookup (options : Options) (text : List Char) (test : Tree) : Prop :=
  ∃ rest, byteSlice test.span.start test.span.stop text = options.globals.scopeLookup.toList ++ '(' :: rest

/-- The part to which the path leads is inside of a conditional whose test starts with the lookup of a scope. -/
def InLookup (options : Options) (code : String) (script : Tree) (path : List Nat) : Prop :=
  ∃ front i back span test ks, path = front ++ i :: back ∧
    script.at? front = some (.node .conditional span (test :: ks)) ∧ StartsLookup options code.toList test

/-- The name that is read where the path leads stays: it is the operand of `typeof`, a branch of a conditional that asks
for it, or part of a lookup. -/
inductive StaysAt (options : Options) (code : String) (script : Tree) (x : String) : List Nat → Prop
  | operand {front : List Nat} {span : Span} {k : Tree}
      (h : script.at? front = some (.node (.unary .typeof) span [k])) : StaysAt options code script x (front ++ [0])
  | branch {front : List Nat} {i : Nat} {span : Span} {test yes no : Tree}
      (h : script.at? front = some (.node .conditional span [test, yes, no])) (hasks : AsksFor x test)
      (hi : i ∈ [1, 2]) :
      StaysAt options code script x (front ++ [i])
  | lookup {path : List Nat} (h : InLookup options code script path) : StaysAt options code script x path

/-- The name is looked up in the scope where the path leads: nothing around binds it, it belongs neither to the page nor
to another module, and the statements around take it apart under no other name. -/
structure IsFree (options : Options) (script : Tree) (path : List Nat) (x : String) : Prop where
  unbound : ¬BoundAt script path x
  notHost : options.globals.isHostGlobal x = false
  notReexported : x ∉ reexportedNames script.kids
  notRenamed : ∀ t ∈ listAround [] script path, ¬Renames x t

/-- A change that gives a script its surroundings, at the end of a path. -/
inductive ChangeAt (options : Options) (code : String) (script : Tree) : List Nat → Edit → Prop
  | read {path : List Nat} {x id : String} {m : Span} (hread : script.at? path = some (.node (.read x) m []))
      (hscope : options.scope = some id) (hfree : IsFree options script path x)
      (hstays : ¬StaysAt options code script x path) (hvalue : ¬IsShorthandValue script path) :
      ChangeAt options code script path ⟨m.start, m.stop, lookupText options.globals.scopeLookup id x⟩
  | shorthand {path : List Nat} {x id : String} {m : Span} (hread : script.at? path = some (.node (.read x) m []))
      (hscope : options.scope = some id) (hfree : IsFree options script path x)
      (hstays : ¬StaysAt options code script x path) (hvalue : IsShorthandValue script path) :
      ChangeAt options code script path ⟨m.start, m.stop, x ++ ": " ++ lookupText options.globals.scopeLookup id x⟩
  | import_ {path : List Nat} {phase : ImportPhase} {source : String} {bare typeOnly : Bool} {m : Span} {ks : List Tree}
      (himport : script.at? path = some (.node (.importDecl phase source bare typeOnly) m ks))
      (hregistered : isRegistered options.globals options.registerImports source = true)
      (hlookup : ¬InLookup options code script path) :
      ChangeAt options code script path ⟨m.start, m.stop, registryRead options.globals.moduleRegistry source ks⟩

/-- What is known around a whole script. -/
def outermost (options : Options) (code : String) (script : Tree) : Surroundings :=
  ⟨options, code.toList, reexportedNames script.kids, [], []⟩

variable {options : Options} {code : String} {script : Tree}

theorem scriptLookups_eq : scriptLookups options code script = lookups (outermost options code script) script := rfl

theorem typeofName_eq_some_iff : typeofName t = some x ↔
    ∃ span m ks, t = .node (.unary .typeof) span [.node (.read x) m ks] := by
  unfold typeofName
  split
  next => simp
  next hother =>
    simp only [reduceCtorEq, false_iff]
    rintro ⟨span, m, ks, rfl⟩
    exact hother _ _ _ _ rfl

theorem isUndefinedText_eq_true_iff : isUndefinedText t = true ↔
    ∃ surrogates span ks, t = .node (.string "undefined" surrogates) span ks := by
  obtain ⟨label, span, ks⟩ := t
  unfold isUndefinedText
  dsimp only [Tree.label_node]
  split
  next => simp
  next hother =>
    simp only [Bool.false_eq_true, false_iff]
    rintro ⟨surrogates, span', ks', h⟩
    obtain ⟨rfl, _, _⟩ := by simpa using h
    exact hother _ rfl

theorem guardedName_eq_some_iff : guardedName t = some x ↔ AsksFor x t := by
  constructor
  · intro h
    unfold guardedName at h
    split at h
    · next op span l r =>
      split at h
      · next hop =>
        have hop : op ∈ [BinaryOp.equal, .notEqual, .strictEqual, .strictNotEqual] := by
          simpa [or_assoc] using hop
        split at h
        · next hr =>
          obtain ⟨_, _, _, rfl⟩ := isUndefinedText_eq_true_iff.1 hr
          obtain ⟨_, _, _, rfl⟩ := typeofName_eq_some_iff.1 h
          exact .left hop
        · split at h
          · next hl =>
            obtain ⟨_, _, _, rfl⟩ := isUndefinedText_eq_true_iff.1 hl
            obtain ⟨_, _, _, rfl⟩ := typeofName_eq_some_iff.1 h
            exact .right hop
          · simp at h
      · simp at h
    · simp at h
  · rintro (hop | hop)
    all_goals
      simp only [List.mem_cons, List.not_mem_nil, or_false] at hop
      rcases hop with rfl | rfl | rfl | rfl
    all_goals simp [guardedName, isUndefinedText, typeofName]

/-- A guarded branch reads the name that the test asks for. -/
theorem isGuarded_eq_true_iff {name : Option String} : isGuarded name t = true ↔
    ∃ x, name = some x ∧ t.label = .read x := by
  unfold isGuarded
  split
  next hlabel => simp [hlabel]
  next hother =>
    simp only [Bool.false_eq_true, false_iff]
    rintro ⟨x, rfl, hlabel⟩
    exact hother x x hlabel rfl

theorem valueName?_eq_some_iff : valueName? ks = some x ↔ ∃ key m ks', ks = [key, .node (.read x) m ks'] := by
  unfold valueName?
  split
  next => simp
  next hother =>
    simp only [reduceCtorEq, false_iff]
    rintro ⟨key, m, ks', rfl⟩
    exact hother _ _ _ _ rfl

theorem isNameAlone_eq_true_iff : isNameAlone ks = true ↔ ∃ x m ks', ks = [.node (.read x) m ks'] := by
  unfold isNameAlone
  split
  next => simp
  next hother =>
    simp only [Bool.false_eq_true, false_iff]
    rintro ⟨x, m, ks', rfl⟩
    exact hother _ _ _ rfl

theorem isLookup_eq_true_iff : s.isLookup t.span = true ↔ StartsLookup s.options s.source t := by
  unfold Surroundings.isLookup StartsLookup
  split
  next rest h =>
    rw [afterStart?_eq_some_iff] at h
    simp [h]
  next h =>
    simp only [Bool.false_eq_true, false_iff]
    rintro ⟨rest, hrest⟩
    exact h rest (afterStart?_eq_some_iff.2 hrest)

/-- When a name is looked up in the part to which a path leads. -/
theorem lookup?_along {replacement : String} (hu : script.at? path = some u) :
    ((outermost options code script).along script path).lookup? x = some replacement ↔
      ∃ id, options.scope = some id ∧ IsFree options script path x ∧
        lookupText options.globals.scopeLookup id x = replacement := by
  obtain ⟨hoptions, _, hreexported⟩ := along_constant (s := outermost options code script) hu
  have hbound : x ∈ ((outermost options code script).along script path).bound ↔ BoundAt script path x := by
    rw [mem_bound_along hu]
    simp [outermost]
  have haliases : ((outermost options code script).along script path).aliases = aliasKeys (listAround [] script path) :=
    aliases_along rfl hu
  have hfree : IsFree options script path x ↔ ¬BoundAt script path x ∧ options.globals.isHostGlobal x = false ∧
      x ∉ reexportedNames script.kids ∧ x ∉ aliasKeys (listAround [] script path) := by
    rw [mem_aliasKeys, not_exists]
    constructor
    · rintro ⟨hunbound, hhost, hreexported, hrenamed⟩
      exact ⟨hunbound, hhost, hreexported, fun t ht => hrenamed t ht.1 ht.2⟩
    · rintro ⟨hunbound, hhost, hreexported, hrenamed⟩
      exact ⟨hunbound, hhost, hreexported, fun t ht h => hrenamed t ⟨ht, h⟩⟩
  unfold Surroundings.lookup?
  rw [hoptions, hreexported, haliases, hfree, ← hbound]
  dsimp only [outermost]
  cases options.scope with
  | none => simp
  | some id => simp [and_assoc]

theorem InLookup.append (h : InLookup options code script path) (back : List Nat) :
    InLookup options code script (path ++ back) := by
  obtain ⟨front, i, rest, span, test, ks, rfl, hat, htest⟩ := h
  exact ⟨front, i, rest ++ back, span, test, ks, by simp, hat, htest⟩

theorem InLookup.of_append_singleton (h : InLookup options code script (path ++ [i]))
    (hat : script.at? path = some (.node label span ks)) (hlabel : label ≠ .conditional) :
    InLookup options code script path := by
  obtain ⟨front, j, back, span', test, ks', hpath, hat', htest⟩ := h
  rcases List.eq_nil_or_concat' back with rfl | ⟨back, j', rfl⟩
  · obtain ⟨rfl, rfl⟩ := by simpa using hpath
    obtain ⟨rfl, _⟩ := by simpa using hat.symm.trans hat'
    exact absurd rfl hlabel
  · rw [← List.cons_append, ← List.append_assoc] at hpath
    obtain ⟨rfl, _⟩ := List.append_inj' hpath rfl
    exact ⟨front, j, back, span', test, ks', rfl, hat', htest⟩

/-- Nothing is looked up inside of a lookup. -/
theorem not_inLookup_of_visits (hregular : Regular text script) (h : (outermost options code script).Visits script path) :
    ¬InLookup options code script path := by
  rintro ⟨front, i, back, s, test, ks, hpath, hat, htest⟩
  have hspares := h front i back _ _ _ hpath hat
  obtain ⟨_, yes, no, hks⟩ := List.length_eq_three.1 (hregular.at? hat).fits
  obtain ⟨rfl, rfl⟩ := by simpa using hks
  have hlookup : (outermost options code script).isLookup test.span = true := isLookup_eq_true_iff.2 htest
  simp [Surroundings.spares, Surroundings.sparesBranch, hlookup] at hspares

/-- Names that are read stay where nothing is looked up, or their keys name them. -/
theorem not_staysAt_of_visits (hregular : Regular text script) (hread : script.at? path = some (.node (.read x) span ks))
    (h : (outermost options code script).Visits script path) :
    ¬StaysAt options code script x path ∧ ¬IsShorthandValue script path := by
  have hkid {front : List Nat} {i : Nat} {label : Label} {s : Span} {ks' : List Tree}
      (hat : script.at? front = some (.node label s ks'))
      (hread : script.at? (front ++ [i]) = some (.node (.read x) span ks)) :
      ks'[i]? = some (.node (.read x) span ks) := by
    obtain ⟨v, hv, hkid⟩ := Tree.at?_append_singleton.1 hread
    obtain rfl := Option.some.inj (hat.symm.trans hv)
    exact hkid
  refine ⟨fun hstays => ?_, ?_⟩
  · cases hstays with
    | operand hat =>
      have hspares := h _ 0 [] _ _ _ rfl hat
      obtain rfl := by simpa using hkid hat hread
      simp [Surroundings.spares, isNameAlone] at hspares
    | branch hat hasks hi =>
      have hspares := h _ _ [] _ _ _ rfl hat
      have hmem := hkid hat hread
      rw [← guardedName_eq_some_iff] at hasks
      simp only [List.mem_cons, List.not_mem_nil, or_false] at hi
      rcases hi with rfl | rfl
      all_goals
        obtain rfl := by simpa using hmem
        simp [Surroundings.spares, Surroundings.sparesBranch, hasks, isGuarded] at hspares
    | lookup hlookup => exact not_inLookup_of_visits hregular h hlookup
  · rintro ⟨front, kind, computed, s, ks, rfl, hat⟩
    have hspares := h front 1 [] _ _ _ rfl hat
    have hmem := hkid hat hread
    obtain ⟨w, s', v, rfl, _⟩ := (hregular.at? hat).fits
    obtain rfl := by simpa using hmem
    simp [Surroundings.spares, valueName?] at hspares

/-- What is spared, but for the insides of a lookup, are parts of imports, keys, and names that stay or that their keys
name. -/
theorem visits_of_not_inLookup (hregular : Regular text script) (hu : script.at? path = some u)
    (hlookup : ¬InLookup options code script path) (hpart : u.isImportPart = false) (hname : ∀ w, u.label ≠ .name w)
    (hread : ∀ x, u.label = .read x → ¬StaysAt options code script x path ∧ ¬IsShorthandValue script path) :
    (outermost options code script).Visits script path := by
  rintro front i back label s ks rfl hat
  rw [Tree.at?_append, hat, Option.bind_some] at hu
  obtain ⟨k, hk, hback⟩ := Tree.at?_node.1 hu
  clear hu
  have hnode := hregular.at? hat
  have hleaf {x : String} {m : Span} {ks' : List Tree} (hk' : ks[i]? = some (.node (.read x) m ks')) :
      back = [] ∧ u.label = .read x := by
    obtain ⟨_, rfl⟩ := (hnode.kids _ (List.mem_of_getElem? hk')).spells rfl
    obtain rfl := Option.some.inj (hk.symm.trans hk')
    obtain ⟨rfl, rfl⟩ := Tree.at?_of_kids_eq_nil rfl hback
    exact ⟨rfl, rfl⟩
  by_contra hspares
  rw [Bool.not_eq_false] at hspares
  unfold Surroundings.spares at hspares
  split at hspares
  · have hkpart : k.isImportPart = true := hnode.fits k (List.mem_of_getElem? hk)
    obtain ⟨_, rfl⟩ := Tree.at?_of_kids_eq_nil (Tree.isImportPart.kids hkpart) hback
    simp [hkpart] at hpart
  · obtain ⟨x, hx⟩ := Option.isSome_iff_exists.1 hspares
    obtain ⟨key, m, ks', rfl⟩ := valueName?_eq_some_iff.1 hx
    match i with
    | 0 =>
      obtain ⟨w, s', v, hparts, _⟩ := hnode.fits
      obtain ⟨rfl, rfl⟩ := by simpa using hparts
      obtain rfl := by simpa using hk
      obtain ⟨_, rfl⟩ := Tree.at?_of_kids_eq_nil rfl hback
      exact hname w rfl
    | 1 =>
      obtain ⟨rfl, hlabel⟩ := hleaf rfl
      exact (hread x hlabel).2 ⟨front, _, _, _, _, rfl, hat⟩
  · obtain ⟨x, m, ks', rfl⟩ := isNameAlone_eq_true_iff.1 hspares
    match i with
    | 0 =>
      obtain ⟨rfl, hlabel⟩ := hleaf rfl
      exact (hread x hlabel).1 (.operand hat)
  · obtain ⟨test, yes, no, rfl⟩ := List.length_eq_three.1 hnode.fits
    have hcases : (outermost options code script).isLookup test.span = true ∨
        (i = 1 ∧ isGuarded (guardedName test) yes = true) ∨ (i = 2 ∧ isGuarded (guardedName test) no = true) := by
      simpa [Surroundings.sparesBranch, or_assoc] using hspares
    have hbranch {j : Nat} {branch : Tree} (hj : i = j) (hmem : j ∈ [1, 2]) (hk' : [test, yes, no][j]? = some branch)
        (hguarded : isGuarded (guardedName test) branch = true) : False := by
      subst hj
      obtain ⟨x, hasks, hlabel⟩ := isGuarded_eq_true_iff.1 hguarded
      obtain ⟨label, m, ks'⟩ := branch
      obtain rfl : label = .read x := hlabel
      obtain ⟨rfl, hlabel⟩ := hleaf hk'
      exact (hread x hlabel).1 (.branch hat (guardedName_eq_some_iff.1 hasks) hmem)
    rcases hcases with hat' | ⟨hi, hguarded⟩ | ⟨hi, hguarded⟩
    · exact hlookup ⟨front, i, back, s, test, [yes, no], rfl, hat, isLookup_eq_true_iff.1 hat'⟩
    · exact hbranch hi (by simp) rfl hguarded
    · exact hbranch hi (by simp) rfl hguarded
  · simp at hspares

/-- A property binds no name and is no list of statements. -/
theorem isFree_of_value {kind : PropertyKind} {computed shorthand : Bool}
    (hat : script.at? path = some (.node (.property kind computed shorthand) span ks)) (hk : ks[i]? = some k) :
    IsFree options script (path ++ [i]) x ↔ IsFree options script path x := by
  have hbound : BoundAt script (path ++ [i]) x ↔ BoundAt script path x := by
    rw [boundAt_append_singleton hat, or_iff_left]
    rintro ⟨_, hbinds⟩
    simpa [scopeNames] using hbinds.mem
  have hlist : listAround [] script (path ++ [i]) = listAround [] script path := listAround_append_singleton hat hk
  constructor
  · rintro ⟨hunbound, hhost, hreexported, hrenamed⟩
    exact ⟨hbound.not.1 hunbound, hhost, hreexported, hlist ▸ hrenamed⟩
  · rintro ⟨hunbound, hhost, hreexported, hrenamed⟩
    exact ⟨hbound.not.2 hunbound, hhost, hreexported, hlist ▸ hrenamed⟩

/-- The edits for a script are its changes. -/
theorem mem_scriptLookups_iff (hregular : Regular text script) :
    e ∈ scriptLookups options code script ↔ ∃ path, ChangeAt options code script path e := by
  rw [scriptLookups_eq, mem_lookups_iff hregular]
  constructor
  · rintro ⟨path, ⟨label, span, ks⟩, hat, hvisits, he⟩
    have hnode := hregular.at? hat
    have hoptions := (along_constant (s := outermost options code script) hat).1
    unfold Surroundings.own at he
    dsimp only at he
    split at he
    · next x =>
      obtain ⟨_, rfl⟩ := hnode.spells rfl
      obtain ⟨replacement, hreplacement, rfl⟩ := by simpa using he
      obtain ⟨id, hscope, hfree, rfl⟩ := (lookup?_along hat).1 hreplacement
      obtain ⟨hstays, hvalue⟩ := not_staysAt_of_visits hregular hat hvisits
      exact ⟨path, .read hat hscope hfree hstays hvalue⟩
    · split at he
      · next hregistered =>
        rw [hoptions] at hregistered he
        obtain rfl := by simpa using he
        exact ⟨path, .import_ hat hregistered (not_inLookup_of_visits hregular hvisits)⟩
      · simp at he
    · split at he
      · next x hx =>
        obtain ⟨key, m, ks', rfl⟩ := valueName?_eq_some_iff.1 hx
        obtain rfl := span_of_shorthand hnode
        obtain ⟨_, rfl⟩ := (hnode.kids (.node (.read x) m ks') (by simp)).spells rfl
        obtain ⟨replacement, hreplacement, rfl⟩ := by simpa using he
        obtain ⟨id, hscope, hfree, rfl⟩ := (lookup?_along hat).1 hreplacement
        have hvalue : script.at? (path ++ [1]) = some (.node (.read x) m []) :=
          Tree.at?_append_singleton.2 ⟨_, hat, rfl⟩
        have hstays : ¬StaysAt options code script x (path ++ [1]) := by
          intro hstays
          generalize hpath : path ++ [1] = whole at hstays
          cases hstays with
          | operand h =>
            simpa using List.append_inj_right' hpath rfl
          | branch h =>
            obtain ⟨rfl, _⟩ := List.append_inj' hpath rfl
            simpa using hat.symm.trans h
          | lookup h =>
            subst hpath
            exact not_inLookup_of_visits hregular hvisits (h.of_append_singleton hat (by simp))
        have hkey : IsShorthandValue script (path ++ [1]) := ⟨path, _, _, _, _, rfl, hat⟩
        exact ⟨path ++ [1], .shorthand hvalue hscope ((isFree_of_value hat rfl).2 hfree) hstays hkey⟩
      · simp at he
    · simp at he
  · rintro ⟨path, hchange⟩
    cases hchange with
    | @read x id m hread hscope hfree hstays hvalue =>
      refine ⟨path, _, hread, ?_, ?_⟩
      · refine visits_of_not_inLookup hregular hread (fun h => hstays (.lookup h)) rfl (by simp) fun y hy => ?_
        obtain rfl := by simpa using hy
        exact ⟨hstays, hvalue⟩
      · have hreplacement : ((outermost options code script).along script path).lookup? x = some _ :=
          (lookup?_along hread).2 ⟨id, hscope, hfree, rfl⟩
        simp [Surroundings.own, hreplacement]
    | @shorthand x id m hread hscope hfree hstays hvalue =>
      obtain ⟨front, kind, computed, span, ks, rfl, hat⟩ := hvalue
      obtain ⟨v, hv, hkid⟩ := Tree.at?_append_singleton.1 hread
      obtain rfl := Option.some.inj (hat.symm.trans hv)
      obtain ⟨w, s', v, rfl, _⟩ := (hregular.at? hat).fits
      obtain rfl : v = .node (.read x) m [] := by simpa using hkid
      obtain rfl := span_of_shorthand (hregular.at? hat)
      refine ⟨front, _, hat, ?_, ?_⟩
      · exact visits_of_not_inLookup hregular hat (fun h => hstays (.lookup (h.append [1]))) rfl (by simp) (by simp)
      · have hreplacement : ((outermost options code script).along script front).lookup? x = some _ :=
          (lookup?_along hat).2 ⟨id, hscope, (isFree_of_value hat rfl).1 hfree, rfl⟩
        simp [Surroundings.own, valueName?, hreplacement]
    | import_ himport hregistered hlookup =>
      refine ⟨path, _, himport, visits_of_not_inLookup hregular himport hlookup rfl (by simp) (by simp), ?_⟩
      simp only [Surroundings.own, (along_constant (s := outermost options code script) himport).1]
      simp [outermost, hregistered]

end LiveNotes.Transpile
