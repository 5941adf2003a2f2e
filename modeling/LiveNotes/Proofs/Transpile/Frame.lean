import LiveNotes.Proofs.Transpile.Changing
import Mathlib.Data.List.Infix

/-! Free names and registered imports are replaced in the text of a script, each in its place. Everything else in
the text stays as it is. -/

namespace LiveNotes.Transpile

open Script Text
open Script.Tree (marks marksAll)

variable {options : Options} {code out : String} {text : List Char} {script : Program} {t u : Tree} {path : List Nat}
  {e : Edit}

/-! ### The edits that are made -/

theorem withLookups_of_parse (h : parse .plainModule code = some script) (options : Options) :
    withLookups code options = .ok (Edit.apply code (scriptLookups options code script.tree)) := by
  unfold withLookups
  rw [h]

theorem editSpans_sublist (hscript : parse .plainModule code = some script) (options : Options) :
    ((scriptLookups options code script.tree).map editSpan).Sublist (marks script.tree) :=
  lookups_sublist ((spaced_parse hscript).regular _ (List.mem_singleton_self _)) _

/-- Each edit for a script replaces a part of its text. -/
theorem replaces_scriptLookups (hscript : parse .plainModule code = some script) (options : Options) :
    ∀ e ∈ scriptLookups options code script.tree, ∃ old, e.Replaces code.toList old := by
  intro e he
  have hmem := (editSpans_sublist hscript options).subset (List.mem_map_of_mem he)
  obtain ⟨hstart, hstop, hle⟩ := (spaced_parse hscript).stands _ (by rwa [marksAll_singleton])
  obtain ⟨old, before, after, htext, hbefore, hafter⟩ := exists_holds hstart hstop hle
  refine ⟨old, before, after, htext, hbefore, ?_⟩
  rw [show e.start = byteLength before from hbefore]
  exact hafter

/-- The edits for a script lie apart from each other. -/
theorem apart_scriptLookups (hscript : parse .plainModule code = some script) (options : Options) :
    (scriptLookups options code script.tree).Pairwise Edit.Apart := by
  have hapart := (spaced_parse hscript).apart
  rw [marksAll_singleton] at hapart
  have hspans := hapart.sublist (editSpans_sublist hscript options)
  rwa [List.pairwise_map] at hspans

/-- All edits for a script are made. -/
theorem exists_made (hscript : parse .plainModule code = some script) (options : Options) :
    ∃ out made, withLookups code options = .ok out ∧ Edit.Makes 0 made code.toList out.toList ∧
      made.Perm (scriptLookups options code script.tree) := by
  obtain ⟨made, hperm, hmade⟩ :=
    Edit.makes_apply (replaces_scriptLookups hscript options) (apart_scriptLookups hscript options)
  exact ⟨_, made, withLookups_of_parse hscript options, hmade, hperm⟩

/-- The edits made for a script are its changes. -/
theorem exists_made_changes (hscript : parse .plainModule code = some script) (options : Options) :
    ∃ out made, withLookups code options = .ok out ∧ Edit.Makes 0 made code.toList out.toList ∧
      ∀ e, e ∈ made ↔ ∃ path, ChangeAt options code script.tree path e := by
  obtain ⟨out, made, hout, hmade, hperm⟩ := exists_made hscript options
  have hregular := (spaced_parse hscript).regular _ (List.mem_singleton_self _)
  exact ⟨out, made, hout, hmade, fun e => hperm.mem_iff.trans (mem_scriptLookups_iff hregular)⟩

theorem exists_parse_of_withLookups (h : withLookups code options = .ok out) :
    ∃ script, parse .plainModule code = some script := by
  unfold withLookups at h
  split at h
  · simp at h
  next script hscript => exact ⟨script, hscript⟩

/-! ### What is replaced -/

/-- Names that are read show in the text, and so do imports. -/
theorem ChangeAt.shows {text : List Char} {script : Tree} (hregular : Regular text script)
    (h : ChangeAt options code script path e) : script.Shows path := by
  cases h with
  | read hread => exact hregular.shows hread rfl (by simp)
  | shorthand hread => exact hregular.shows hread rfl (by simp)
  | import_ himport => exact hregular.shows himport rfl (by simp)

/-- What may be replaced in a script: names that it reads and nothing binds, and imports from the registry. -/
inductive MayChange (options : Options) (script : Tree) (path : List Nat) : Tree → Prop
  | read {x : String} {m : Span} {ks : List Tree} (h : ¬BoundAt script path x) :
      MayChange options script path (.node (.read x) m ks)
  | import_ {phase : ImportPhase} {source : String} {bare typeOnly : Bool} {m : Span} {ks : List Tree}
      (h : isRegistered options.globals options.registerImports source = true) :
      MayChange options script path (.node (.importDecl phase source bare typeOnly) m ks)

theorem ChangeAt.mayChange {script : Tree} (h : ChangeAt options code script path e) :
    ∃ u, script.at? path = some u ∧ u.label.isLeaf = true ∧ MayChange options script path u ∧ editSpan e = u.span := by
  cases h with
  | read hread _ hfree => exact ⟨_, hread, rfl, .read hfree.unbound, rfl⟩
  | shorthand hread _ hfree => exact ⟨_, hread, rfl, .read hfree.unbound, rfl⟩
  | import_ himport hregistered => exact ⟨_, himport, rfl, .import_ hregistered, rfl⟩

/-- Only names that nothing binds and imports from the registry are replaced. All other words and literals of a
script, and the text between them, stay; a script without such names and imports stays as it is. -/
theorem only_free_names_change (hscript : parse .plainModule code = some script) (options : Options) :
    ∃ out made, withLookups code options = .ok out ∧ Edit.Makes 0 made code.toList out.toList ∧
      (∀ e ∈ made, ∃ path u, script.tree.at? path = some u ∧ MayChange options script.tree path u ∧
        editSpan e = u.span ∧ ∀ x, u.label = .read x → u.span.Spells code.toList x) ∧
      (∀ path u, script.tree.at? path = some u → script.tree.Shows path → u.label.isLeaf = true →
        ¬MayChange options script.tree path u → ∀ e ∈ made, (editSpan e).Apart u.span) ∧
      ((∀ path u, script.tree.at? path = some u → ¬MayChange options script.tree path u) → out = code) := by
  obtain ⟨out, made, hout, hmade, hmem⟩ := exists_made_changes hscript options
  have hspaced := spaced_parse hscript
  have hregular : Regular code.toList script.tree := hspaced.regular _ (List.mem_singleton_self _)
  have hapart := hspaced.apart
  rw [marksAll_singleton] at hapart
  refine ⟨out, made, hout, hmade, fun e he => ?_, fun path u hu hshows hleaf hstays e he => ?_, fun hnone => ?_⟩
  · obtain ⟨path, hchange⟩ := (hmem e).1 he
    obtain ⟨u, hu, _, hmay, hspan⟩ := hchange.mayChange
    refine ⟨path, u, hu, hmay, hspan, fun x hx => ?_⟩
    obtain ⟨label, span, ks⟩ := u
    obtain rfl : label = .read x := hx
    exact ((hregular.at? hu).spells rfl).1
  · obtain ⟨path', hchange⟩ := (hmem e).1 he
    obtain ⟨v, hv, hvleaf, hmay, hspan⟩ := hchange.mayChange
    rw [hspan]
    refine apart_of_path_ne hapart hv hu (hchange.shows hregular) hshows hvleaf hleaf ?_
    rintro rfl
    obtain rfl := Option.some.inj (hu.symm.trans hv)
    exact hstays hmay
  · have hnothing : made = [] := by
      refine List.eq_nil_iff_forall_not_mem.2 fun e he => ?_
      obtain ⟨path, hchange⟩ := (hmem e).1 he
      obtain ⟨u, hu, _, hmay, _⟩ := hchange.mayChange
      exact hnone path u hu hmay
    subst hnothing
    exact String.toList_injective hmade.eq_of_nil

/-- `const x = 1;\nf(x);` keeps the name that it binds. -/
theorem only_free_names_change_bound : ∃ out made, withLookups "const x = 1;\nf(x);" { scope := some "s" } = .ok out ∧
    Edit.Makes 0 made "const x = 1;\nf(x);".toList out.toList ∧ ∀ e ∈ made, (editSpan e).Apart ⟨15, 16⟩ := by
  obtain ⟨script, hscript⟩ := Option.isSome_iff_exists.1
    (by decide +kernel : (parse .plainModule "const x = 1;\nf(x);").isSome = true)
  have hparts : ∀ s ∈ parse .plainModule "const x = 1;\nf(x);",
      (s.tree.at? [1, 0, 1]).map (fun u => (u.label, u.span)) = some (.read "x", ⟨15, 16⟩) ∧
        "x" ∈ ((outermost {} "" s.tree).along s.tree [1, 0, 1]).bound := by decide +kernel
  obtain ⟨hread, hbound⟩ := hparts script hscript
  obtain ⟨⟨label, span, ks⟩, hu, hlabel⟩ := Option.map_eq_some_iff.1 hread
  obtain ⟨rfl, rfl⟩ := by simpa using hlabel
  have hregular : Regular _ script.tree := (spaced_parse hscript).regular _ (List.mem_singleton_self _)
  obtain ⟨out, made, hout, hmade, _, hstay, _⟩ := only_free_names_change hscript { scope := some "s" }
  refine ⟨out, made, hout, hmade, hstay _ _ hu (hregular.shows hu ?_ (by simp)) rfl ?_⟩
  · obtain ⟨_, rfl⟩ := (hregular.at? hu).spells rfl
    rfl
  · rintro ⟨hunbound⟩
    exact hunbound ((mem_bound_along hu).1 hbound |>.resolve_left (by simp [outermost]))

/-- With a scope, every free name that is read and does not stay is replaced by its lookup; where the key of a property
names it, the key comes with it. -/
theorem free_names_change (hscript : parse .plainModule code = some script) (options : Options) {id : String}
    (hscope : options.scope = some id) :
    ∃ out made, withLookups code options = .ok out ∧ Edit.Makes 0 made code.toList out.toList ∧
      ∀ path x m ks, script.tree.at? path = some (.node (.read x) m ks) → IsFree options script.tree path x →
        ¬StaysAt options code script.tree x path → m.Spells code.toList x ∧
          (¬IsShorthandValue script.tree path →
            ⟨m.start, m.stop, lookupText options.globals.scopeLookup id x⟩ ∈ made) ∧
          (IsShorthandValue script.tree path →
            ⟨m.start, m.stop, x ++ ": " ++ lookupText options.globals.scopeLookup id x⟩ ∈ made) := by
  obtain ⟨out, made, hout, hmade, hmem⟩ := exists_made_changes hscript options
  have hregular : Regular code.toList script.tree := (spaced_parse hscript).regular _ (List.mem_singleton_self _)
  refine ⟨out, made, hout, hmade, fun path x m ks hread hfree hstays => ?_⟩
  obtain ⟨hspells, rfl⟩ := (hregular.at? hread).spells rfl
  exact ⟨hspells, fun hvalue => (hmem _).2 ⟨path, .read hread hscope hfree hstays hvalue⟩,
    fun hvalue => (hmem _).2 ⟨path, .shorthand hread hscope hfree hstays hvalue⟩⟩

/-- A name stays only below a conditional or a `typeof`. -/
theorem not_staysAt {script : Tree} {x : String} (h : ∀ front ∈ path.inits, ∀ u ∈ script.at? front,
    u.label ≠ .conditional ∧ u.label ≠ .unary .typeof) : ¬StaysAt options code script x path := by
  have hlabel {front back : List Nat} {i : Nat} {label : Label} {m : Span} {ks : List Tree}
      (hpath : path = front ++ i :: back) (hat : script.at? front = some (.node label m ks)) : label ≠ .conditional ∧ label ≠ .unary .typeof :=
    h front ((List.mem_inits _ _).2 ⟨i :: back, hpath.symm⟩) _ hat
  intro hstays
  cases hstays with
  | operand hat => exact (hlabel rfl hat).2 rfl
  | branch hat => exact (hlabel rfl hat).1 rfl
  | lookup hlookup =>
    obtain ⟨front, i, back, _, _, _, hpath, hat, _⟩ := hlookup
    exact (hlabel hpath hat).1 rfl

/-- `f(x);` reads its argument from the scope. -/
theorem free_names_change_argument : ∃ out made, withLookups "f(x);" { scope := some "s" } = .ok out ∧
    Edit.Makes 0 made "f(x);".toList out.toList ∧ ⟨2, 3, lookupText "window._livedocGetScope" "s" "x"⟩ ∈ made := by
  obtain ⟨script, hscript⟩ := Option.isSome_iff_exists.1 (by decide +kernel : (parse .plainModule "f(x);").isSome = true)
  have hparts : ∀ s ∈ parse .plainModule "f(x);",
      (s.tree.at? [0, 0, 1]).map (fun u => (u.label, u.span)) = some (.read "x", ⟨2, 3⟩) ∧
        (((outermost { scope := some "s" } "f(x);" s.tree).along s.tree [0, 0, 1]).lookup? "x").isSome = true ∧
        ∀ front ∈ [0, 0, 1].inits, ∀ u ∈ s.tree.at? front,
          u.label ≠ .conditional ∧ u.label ≠ .unary .typeof ∧ u.label.isShorthand = false := by decide +kernel
  obtain ⟨hread, hlookup, hplain⟩ := hparts script hscript
  obtain ⟨⟨label, span, ks⟩, hu, hlabel⟩ := Option.map_eq_some_iff.1 hread
  obtain ⟨rfl, rfl⟩ := by simpa using hlabel
  obtain ⟨replacement, hreplacement⟩ := Option.isSome_iff_exists.1 hlookup
  obtain ⟨_, _, hfree, _⟩ := (lookup?_along hu).1 hreplacement
  obtain ⟨out, made, hout, hmade, hchange⟩ := free_names_change hscript { scope := some "s" } rfl
  refine ⟨out, made, hout, hmade, (hchange _ _ _ _ hu hfree (not_staysAt fun front hfront u hu => ?_)).2.1 ?_⟩
  · obtain ⟨hconditional, htypeof, _⟩ := hplain front hfront u hu
    exact ⟨hconditional, htypeof⟩
  · rintro ⟨front, kind, computed, m, ks', hpath, hat⟩
    have hshort := (hplain front ((List.mem_inits _ _).2 ⟨[1], hpath.symm⟩) _ hat).2.2
    simp [Label.isShorthand] at hshort

/-- A name that is a key of a pattern around it, under which another name is bound, is read as it is. -/
theorem renamed_key_stays : ∃ script, parse .plainModule "const { a: b } = c;\na;\n" = some script ∧
    (∃ ks, script.tree.at? [1, 0] = some (.node (.read "a") ⟨20, 21⟩ ks)) ∧
    ¬BoundAt script.tree [1, 0] "a" ∧ RuntimeGlobals.isHostGlobal {} "a" = false ∧
    "a" ∉ reexportedNames script.tree.kids ∧
    ¬StaysAt { scope := some "s" } "const { a: b } = c;\na;\n" script.tree "a" [1, 0] ∧
    (withLookups "const { a: b } = c;\na;\n" { scope := some "s" }).toOption =
      some ("const { a: b } = (window._livedocGetScope(\"s\").has(\"c\") ? " ++
        "window._livedocGetScope(\"s\").get(\"c\") : c);\na;\n") := by
  obtain ⟨script, hscript⟩ := Option.isSome_iff_exists.1
    (by decide +kernel : (parse .plainModule "const { a: b } = c;\na;\n").isSome = true)
  have hparts : ∀ s ∈ parse .plainModule "const { a: b } = c;\na;\n",
      (s.tree.at? [1, 0]).map (fun u => (u.label, u.span)) = some (.read "a", ⟨20, 21⟩) ∧
        "a" ∉ ((outermost {} "" s.tree).along s.tree [1, 0]).bound ∧ "a" ∉ reexportedNames s.tree.kids ∧
        ∀ front ∈ [1, 0].inits, ∀ u ∈ s.tree.at? front, u.label ≠ .conditional ∧ u.label ≠ .unary .typeof := by
    decide +kernel
  obtain ⟨hread, hunbound, hreexported, hplain⟩ := hparts script hscript
  obtain ⟨⟨label, span, ks⟩, hu, hlabel⟩ := Option.map_eq_some_iff.1 hread
  obtain ⟨rfl, rfl⟩ := by simpa using hlabel
  refine ⟨script, hscript, ⟨ks, hu⟩, fun hbound => ?_, by decide, hreexported, not_staysAt hplain, by decide +kernel⟩
  exact hunbound ((mem_bound_along hu).2 (.inr hbound))

end LiveNotes.Transpile
