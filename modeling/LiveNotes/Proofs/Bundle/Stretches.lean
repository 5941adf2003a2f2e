import LiveNotes.Proofs.Bundle.Hoist
import LiveNotes.Proofs.Bundle.WrapperNames

/-! The text of a chunk in stretches: text that all chunks share, numbers, parts of the modules, and between
them the ids, the specifiers and the exported names of the graph. A specifier or a name stands there as a literal
or as a word, which is over before what follows it, whatever that is. An id stands in a comment, which is over at
the end of its line: that is the end of the id unless a line ends in the id itself. -/

namespace LiveNotes.Bundle

open Script Text

/-- A part of the text of a chunk. -/
inductive Stretch where
  | fixed (text : String)
  | number (n : Nat)
  | literal (s : String)
  | word (s : String)
  | comment (s : String)
  /-- A part of a module's source, or a name or expression of its own. -/
  | own (text : String)

namespace Stretch

def text : Stretch → String
  | .fixed text | .own text | .word text => text
  | .number n => toString n
  | .literal s => quoted s
  | .comment s => "// " ++ s

def comment? : Stretch → Option String
  | .comment s => some s
  | _ => none

end Stretch

/-- The text of some stretches. -/
def textOf (ss : List Stretch) : String := String.join (ss.map Stretch.text)

/-- Each stretch has the property, which depends on what follows it. -/
def Along (P : List Char → Stretch → Prop) (rest : List Char) : List Stretch → Prop
  | [] => True
  | s :: ss => P ((textOf ss).toList ++ rest) s ∧ Along P rest ss

/-- The texts that all chunks share. -/
def fixedTexts : List String :=
  ["import * as ", "__ext", " from ", ";\n", "\n__modules[", "] = function (module, exports, __require) \x7b\n",
    "\n\x7d;\n", "__export(exports, \x7b ", ": () => ", ", ", " \x7d);\n", "__re", "[", "]", "__require(", ")",
    "\x7b ", ": ", " \x7d", "const ", " = ", ";", " ", "const __default = ", "const __default =",
    "__exportStar(exports, ", ");", "Promise.resolve().then(() => ", "const __entry = ", "\n", "__x", "__entry[",
    "export \x7b ", " as ", " \x7d;\n", "export * from ", chunkHead]

/-- The names that an item takes from another module. -/
def LinkKind.imported : LinkKind → List String
  | .importNames _ names | .reExport _ names => names.map (·.imported)
  | _ => []

/-- The names and expressions of a module's own: what its imports are called here, and what gives its exports
their values. -/
def Module.locals (m : Module) : List String :=
  m.analysis.exports.map (·.2) ++ m.analysis.items.flatMap (·.kind.importedHere)

namespace ModuleGraph

/-- A specifier, or a name that a module exports or takes from another one. -/
def Mentions (g : ModuleGraph) (s : String) : Prop :=
  ∃ m ∈ g.modules, s ∈ m.names ∨ ∃ item ∈ m.analysis.items, item.kind.specifier? = some s ∨ s ∈ item.kind.imported

/-- A part of the source of a module, or a name or expression of its own. -/
def Owns (g : ModuleGraph) (text : String) : Prop :=
  ∃ m ∈ g.modules, text.toList <:+: m.source.toList ∨ text ∈ m.locals

end ModuleGraph

namespace Stretch

/-- What a stretch of a chunk may be in front of `rest`. A literal or a word is the first token of the text that
starts with it, and its value is a string of the graph. -/
def Fits (g : ModuleGraph) (rest : List Char) : Stretch → Prop
  | .fixed text => text ∈ fixedTexts
  | .number _ => True
  | .literal s => g.Mentions s ∧ StartsWith ((quoted s).toList ++ rest) (.string s false) rest
  | .word s => g.Mentions s ∧ isIdentifierName s = true ∧ StartsWith (s.toList ++ rest) (.word s false) rest
  | .comment _ => rest.head? = some '\n'
  | .own text => g.Owns text

/-- A comment, when the white space and the comments in front of a token are passed over, reaches up to `rest`. -/
def Ends (rest : List Char) : Stretch → Prop
  | .comment s => ∀ fuel t pos, ∃ t' stop,
      skipTrivia (fuel + 1) t ⟨(Stretch.comment s).text.toList ++ rest, pos⟩ = skipTrivia fuel t' ⟨rest, stop⟩
  | _ => True

end Stretch

/-! ### Where comments end -/

section

variable {s : String} {rest : List Char}

/-- A text that starts with two slashes is passed over up to the first end of a line. -/
theorem skipTrivia_comment {body : List Char} (hbody : ∀ c ∈ body, isLineEnd c = false)
    (hrest : ∀ c ∈ rest.head?, isLineEnd c = true) (fuel : Nat) (t : Trivia) (pos : Nat) : ∃ t' stop,
      skipTrivia (fuel + 1) t ⟨'/' :: '/' :: (body ++ rest), pos⟩ = skipTrivia fuel t' ⟨rest, stop⟩ := by
  have hall : ∀ c ∈ '/' :: '/' :: body, (!isLineEnd c) = true := by
    simpa [show isLineEnd '/' = false by decide] using hbody
  have hnone : ∀ c ∈ rest.head?, (!isLineEnd c) = false := fun c hc => by simp [hrest c hc]
  obtain ⟨stop, htaken⟩ := takeWhile_append hall hnone pos
  refine ⟨t.addLine ('/' :: '/' :: body), stop, ?_⟩
  rw [List.cons_append, List.cons_append] at htaken
  rw [skipTrivia]
  simp only [htaken]

theorem Stretch.ends_comment_iff (h : rest.head? = some '\n') :
    (Stretch.comment s).Ends rest ↔ ∀ c ∈ s.toList, isLineEnd c = false := by
  have htext : ∀ more, (Stretch.comment s).text.toList ++ more = '/' :: '/' :: (' ' :: s.toList ++ more) := by
    intro more
    rw [Stretch.text, String.toList_append]
    rfl
  constructor
  · intro hends
    by_contra hbreak
    push Not at hbreak
    obtain ⟨c, hc, hend⟩ := hbreak
    have hend : isLineEnd c = true := by simpa using hend
    -- The comment is over at the first end of a line, in front of more than the rest.
    obtain ⟨d, hd⟩ := Option.isSome_iff_exists.1 (List.find?_isSome.2 ⟨c, hc, hend⟩)
    obtain ⟨hd, front, back, hs, hfront⟩ := List.find?_eq_some_iff_append.1 hd
    have hbody : ∀ c ∈ ' ' :: front, isLineEnd c = false := by
      simpa [show isLineEnd ' ' = false by decide] using hfront
    have hline : ∀ c ∈ (d :: (back ++ rest)).head?, isLineEnd c = true := by simpa using hd
    obtain ⟨t₁, stop₁, hskip₁⟩ := skipTrivia_comment hbody hline 0 {} 0
    obtain ⟨t₂, stop₂, hskip₂⟩ := hends 0 {} 0
    rw [htext, hs, List.cons_append, List.append_assoc, List.cons_append] at hskip₂
    rw [List.cons_append, hskip₂, skipTrivia, skipTrivia] at hskip₁
    have hrest : rest = d :: (back ++ rest) := congrArg Place.rest (Prod.mk.inj (Option.some.inj hskip₁)).2
    have hlength := congrArg List.length hrest
    rw [List.length_cons, List.length_append] at hlength
    omega
  · intro hnone fuel t pos
    have hbody : ∀ c ∈ ' ' :: s.toList, isLineEnd c = false := by
      simpa [show isLineEnd ' ' = false by decide] using hnone
    have hline : ∀ c ∈ rest.head?, isLineEnd c = true := by
      rw [h]
      rintro _ ⟨⟩
      decide
    rw [htext]
    exact skipTrivia_comment hbody hline fuel t pos

end

/-! ### Texts that are put together -/

section

variable {g : ModuleGraph} {P : List Char → Stretch → Prop} {ss ts : List Stretch} {rest : List Char}
  {a b s : String} {ids more : List String}

theorem textOf_append (ss ts : List Stretch) : textOf (ss ++ ts) = textOf ss ++ textOf ts := by
  rw [textOf, List.map_append, String.join_append]
  rfl

theorem textOf_singleton (s : Stretch) : textOf [s] = s.text := by
  rw [textOf, List.map_singleton, String.join_cons, String.join_nil, String.append_empty]

theorem along_append :
    Along P rest (ss ++ ts) ↔ Along P ((textOf ts).toList ++ rest) ss ∧ Along P rest ts := by
  induction ss with
  | nil => simp [Along]
  | cons s ss ih => simp only [List.cons_append, Along, ih, textOf_append, String.toList_append, List.append_assoc, and_assoc]

/-- A text in front of `rest` consists of stretches that fit, with the given ids in comments. -/
def Composed (g : ModuleGraph) (text : String) (ids : List String) (rest : List Char) : Prop :=
  ∃ ss, textOf ss = text ∧ Along (Stretch.Fits g) rest ss ∧ ss.filterMap Stretch.comment? = ids

namespace Composed

theorem empty : Composed g "" [] rest := ⟨[], rfl, trivial, rfl⟩

theorem append (ha : Composed g a ids (b.toList ++ rest)) (hb : Composed g b more rest) :
    Composed g (a ++ b) (ids ++ more) rest := by
  obtain ⟨ss, rfl, hss, rfl⟩ := ha
  obtain ⟨ts, rfl, hts, rfl⟩ := hb
  exact ⟨ss ++ ts, textOf_append ss ts, along_append.2 ⟨hss, hts⟩, List.filterMap_append⟩

theorem fixed (a : String) (h : a ∈ fixedTexts) : Composed g a [] rest :=
  ⟨[.fixed a], textOf_singleton _, ⟨h, trivial⟩, rfl⟩

theorem number (n : Nat) : Composed g (toString n) [] rest :=
  ⟨[.number n], textOf_singleton _, ⟨trivial, trivial⟩, rfl⟩

theorem literal (h : g.Mentions s) : Composed g (quoted s) [] rest :=
  ⟨[.literal s], textOf_singleton _, ⟨⟨h, startsWith_quoted s _⟩, trivial⟩, rfl⟩

theorem word (h : g.Mentions s) (hs : isIdentifierName s = true) (hrest : EndsWord rest) : Composed g s [] rest :=
  ⟨[.word s], textOf_singleton _, ⟨⟨h, hs, startsWith_word hs hrest⟩, trivial⟩, rfl⟩

theorem own (h : g.Owns a) : Composed g a [] rest :=
  ⟨[.own a], textOf_singleton _, ⟨h, trivial⟩, rfl⟩

theorem comment (h : rest.head? = some '\n') : Composed g ("// " ++ s) [s] rest :=
  ⟨[.comment s], textOf_singleton _, ⟨h, trivial⟩, rfl⟩

theorem join {parts : List String} (h : ∀ p ∈ parts, ∀ rest, Composed g p [] rest) :
    Composed g (String.join parts) [] rest := by
  induction parts with
  | nil => exact empty
  | cons p parts ih =>
    obtain ⟨hp, hparts⟩ := List.forall_mem_cons.1 h
    rw [String.join_cons]
    exact (hp _).append (ih hparts)

/-- Parts of a list are followed by the mark between them, or by what follows the list. -/
theorem list (Q : List Char → Prop) {sep : String} (hsep : sep ∈ fixedTexts) (hmark : ∀ rest, Q (sep.toList ++ rest))
    {parts : List String} (h : ∀ p ∈ parts, ∀ rest, Q rest → Composed g p [] rest) (hrest : Q rest) :
    Composed g (sep.intercalate parts) [] rest := by
  induction parts with
  | nil => exact empty
  | cons p parts ih =>
    obtain ⟨hp, hparts⟩ := List.forall_mem_cons.1 h
    cases parts with
    | nil =>
      rw [String.intercalate_singleton]
      exact hp rest hrest
    | cons q parts =>
      rw [String.intercalate_cons_cons, String.append_assoc]
      refine (hp _ ?_).append ((fixed sep hsep).append (ih hparts))
      rw [String.toList_append, List.append_assoc]
      exact hmark _

end Composed

end

/-! ### What is written for items -/

section

variable {g : ModuleGraph} {m : Module} {rest : List Char} {target importer : String} {item : LinkItem}

theorem composed_requireText (index : Nat) : Composed g (requireText index) [] rest :=
  ((Composed.fixed "__require(" (by decide)).append (.number index)).append
    (.fixed ")" (by decide))

theorem composed_externalName (n : Nat) : Composed g (externalName n) [] rest :=
  (Composed.fixed "__ext" (by decide)).append (.number n)

theorem composed_reExportName (n : Nat) : Composed g (reExportName n) [] rest :=
  (Composed.fixed "__re" (by decide)).append (.number n)

theorem Expression.composed (h : Expression g importer item target) : Composed g target [] rest := by
  cases h with
  | inner => exact composed_requireText _
  | outer n => exact composed_externalName n
  | nothing => exact .empty

theorem composed_bindText {name value : String} (hname : ∀ rest, Composed g name [] rest)
    (hvalue : ∀ rest, Composed g value [] rest) : Composed g (bindText name value) [] rest :=
  ((((Composed.fixed "const " (by decide)).append (hname _)).append
    (.fixed " = " (by decide))).append (hvalue _)).append (.fixed ";" (by decide))

theorem endsWord_toList (mark : String) {c : Char} {cs : List Char} (hmark : mark.toList = c :: cs)
    (hc : isIdentifierPart c = false ∧ c ≠ '\x5c') (rest : List Char) : EndsWord (mark.toList ++ rest) := by
  rw [hmark]
  exact endsWord_cons hc _

theorem composed_destructureProperty {imported here : String} (himported : g.Mentions imported) (hhere : g.Owns here)
    (hrest : EndsWord rest) : Composed g (Transpile.destructureProperty imported here) [] rest := by
  have hcolon : ": " ∈ fixedTexts := by decide
  unfold Transpile.destructureProperty
  split
  · exact ((Composed.literal himported).append (.fixed ": " hcolon)).append (.own hhere)
  · next hname =>
    have hname : isIdentifierName imported = true := by simpa using hname
    split
    · next hsame =>
      obtain rfl : imported = here := by simpa using hsame
      exact .word himported hname hrest
    · have hends := endsWord_toList ": " rfl (by decide) (here.toList ++ rest)
      exact ((Composed.word himported hname hends).append (.fixed ": " hcolon)).append (.own hhere)

theorem composed_properties {ps : List (String × String)} (hps : ∀ p ∈ ps, g.Mentions p.1 ∧ g.Owns p.2) :
    Composed g (Grammar.Binder.properties ps).text [] rest := by
  have hlist : ∀ p ∈ ps.map fun p => Transpile.destructureProperty p.1 p.2,
      ∀ rest, EndsWord rest → Composed g p [] rest := by
    intro text htext rest hrest
    obtain ⟨p, hp, rfl⟩ := List.mem_map.1 htext
    exact composed_destructureProperty (hps p hp).1 (hps p hp).2 hrest
  have hall := Composed.list EndsWord (by decide) (endsWord_toList ", " rfl (by decide)) hlist
    (endsWord_toList " \x7d" rfl (by decide) rest)
  exact ((Composed.fixed "\x7b " (by decide)).append hall).append (.fixed " \x7d" (by decide))

theorem composed_importText {names : List ImportedName} (htarget : ∀ rest, Composed g target [] rest)
    (hnames : ∀ n ∈ names, g.Mentions n.imported ∧ g.Owns n.here) : Composed g (importText target names) [] rest := by
  have hbinders : ∀ b ∈ bindersOf (names.map ImportedName.taken), ∀ rest, Composed g b.text [] rest := by
    intro b hb rest
    rcases List.mem_append.1 hb with hb | hb
    · split at hb
      · contradiction
      · obtain rfl := List.mem_singleton.1 hb
        refine composed_properties fun p hp => ?_
        rw [List.filterMap_map] at hp
        obtain ⟨n, hn, hpair⟩ := List.mem_filterMap.1 hp
        obtain ⟨x, hx, rfl⟩ := Option.map_eq_some_iff.1 hpair
        have hx : (if n.imported = "*" then none else some n.imported) = some x := hx
        split at hx
        · contradiction
        · exact Option.some.inj hx ▸ hnames n hn
    · obtain ⟨x, hx, rfl⟩ := List.mem_map.1 hb
      rw [List.filterMap_map] at hx
      obtain ⟨n, hn, hwhole⟩ := List.mem_filterMap.1 hx
      have hwhole : (if n.taken.property.isNone then some n.here else none) = some x := hwhole
      split at hwhole
      · exact .own (Option.some.inj hwhole ▸ (hnames n hn).2)
      · contradiction
  rw [importText_eq, bindersText]
  split
  · exact (htarget _).append (.fixed ";" (by decide))
  · refine .list (fun _ => True) (by decide) (fun _ => trivial) (fun p hp rest _ => ?_) trivial
    obtain ⟨b, hb, rfl⟩ := List.mem_map.1 hp
    exact composed_bindText (hbinders b hb) htarget

/-- A text without the white space at its end. -/
def trimmed (s : String) : String := String.ofList (dropEnd isWhiteSpace s.toList)

theorem trimmed_append_mark {mark : String} {c : Char} (hmark : mark.toList.getLast? = some c)
    (hc : isWhiteSpace c = false) (front : String) : trimmed (front ++ mark) = front ++ mark := by
  have hlast : ∀ d, (front ++ mark).toList.getLast? = some d → isWhiteSpace d = false := by
    intro d hd
    rw [String.toList_append, List.getLast?_append, hmark, Option.some_or, Option.some.injEq] at hd
    exact hd ▸ hc
  rw [trimmed, dropEnd_of_getLast? hlast, String.ofList_toList]

/-- The text consists of stretches that fit whatever follows, with or without the white space at its end. -/
structure Trimmable (g : ModuleGraph) (text : String) : Prop where
  whole : ∀ rest, Composed g text [] rest
  trimmed : ∀ rest, Composed g (trimmed text) [] rest

theorem exists_importText (target : String) (names : List ImportedName) :
    ∃ front, importText target names = front ++ ";" := by
  rw [importText_eq, bindersText]
  split
  · exact ⟨target, rfl⟩
  · next hne =>
    cases hbinders : bindersOf (names.map ImportedName.taken) with
    | nil => exact absurd (by rw [hbinders, List.isEmpty_nil]) hne
    | cons b bs =>
      clear hbinders
      induction bs generalizing b with
      | nil => exact ⟨_, String.intercalate_singleton⟩
      | cons b' bs ih =>
        obtain ⟨front, hfront⟩ := ih b'
        refine ⟨bindingText target b ++ " " ++ front, ?_⟩
        rw [List.map_cons, List.map_cons, String.intercalate_cons_cons, ← List.map_cons, hfront]
        simp only [String.append_assoc]

/-- What is written in the place of an item. -/
theorem trimmable_edit {e : Edit} (hm : m ∈ g.modules) (hitem : item ∈ m.analysis.items)
    (htarget : Expression g m.id item target) {sources : Nat} (he : e ∈ item.edits target sources) :
    Trimmable g e.text := by
  have hvalue : ∀ rest, Composed g target [] rest := fun _ => htarget.composed
  have hclosed : ∀ {text front mark : String} {c : Char}, text = front ++ mark →
      mark.toList.getLast? = some c → isWhiteSpace c = false → (∀ rest, Composed g text [] rest) →
      Trimmable g text := by
    rintro _ front mark c rfl hmark hc htext
    exact ⟨htext, (trimmed_append_mark hmark hc front).symm ▸ htext⟩
  obtain ⟨span, kind⟩ := item
  cases kind with
  | importNames specifier names =>
    obtain rfl := List.mem_singleton.1 he
    obtain ⟨front, hfront⟩ := exists_importText target names
    refine hclosed hfront rfl (by decide) fun _ => composed_importText hvalue fun n hn => ⟨?_, ?_⟩
    · exact ⟨m, hm, .inr ⟨_, hitem, .inr (List.mem_map_of_mem hn)⟩⟩
    · refine ⟨m, hm, .inr (List.mem_append_right _ (List.mem_flatMap.2 ⟨_, hitem, ?_⟩))⟩
      exact List.mem_map_of_mem hn
  | reExport specifier names =>
    obtain rfl := List.mem_singleton.1 he
    exact hclosed rfl rfl (by decide) fun _ => composed_bindText (fun _ => composed_reExportName _) hvalue
  | exportStar specifier asName =>
    cases asName with
    | none =>
      obtain rfl := List.mem_singleton.1 he
      exact hclosed rfl rfl (by decide) fun _ =>
        ((Composed.fixed "__exportStar(exports, " (by decide)).append (hvalue _)).append (.fixed ");" (by decide))
    | some name =>
      obtain rfl := List.mem_singleton.1 he
      exact hclosed rfl rfl (by decide) fun _ => composed_bindText (fun _ => composed_reExportName _) hvalue
  | defaultExpr semicolonAt =>
    rcases List.mem_cons.1 he with rfl | he
    · have htrimmed : trimmed ("const " ++ defaultBinding ++ " = ") = "const __default =" := by decide
      exact ⟨fun _ => .fixed "const __default = " (by decide), fun _ => htrimmed ▸ .fixed "const __default =" (by decide)⟩
    · obtain ⟨at_, -, rfl⟩ := List.mem_map.1 he
      have htrimmed : trimmed ";" = ";" := by decide
      exact ⟨fun _ => .fixed ";" (by decide), fun _ => htrimmed.symm ▸ .fixed ";" (by decide)⟩
  | remove =>
    obtain rfl := List.mem_singleton.1 he
    exact ⟨fun _ => .empty, fun _ => .empty⟩
  | dynamicImport specifier =>
    obtain rfl := List.mem_singleton.1 he
    exact hclosed rfl rfl (by decide) fun _ =>
      ((Composed.fixed "Promise.resolve().then(() => " (by decide)).append (hvalue _)).append (.fixed ")" (by decide))

/-! ### What is left of a source -/

theorem trimmed_append (a b : String) :
    trimmed (a ++ b) = if trimmed b = "" then trimmed a else a ++ trimmed b := by
  have hempty : trimmed b = "" ↔ (b.toList.reverse.dropWhile isWhiteSpace).isEmpty = true := by
    rw [trimmed, dropEnd, String.ofList_eq_empty_iff, List.reverse_eq_nil_iff, List.isEmpty_iff]
  simp only [hempty]
  unfold trimmed dropEnd
  rw [String.toList_append, List.reverse_append, List.dropWhile_append]
  split
  · rfl
  · rw [List.reverse_append, List.reverse_reverse, String.ofList_append, String.ofList_toList]

theorem Trimmable.append {a b : String} (ha : Trimmable g a) (hb : Trimmable g b) : Trimmable g (a ++ b) := by
  refine ⟨fun rest => (ha.whole _).append (hb.whole rest), fun rest => ?_⟩
  rw [trimmed_append]
  split
  · exact ha.trimmed rest
  · exact (ha.whole _).append (hb.trimmed rest)

theorem trimmable_source (hm : m ∈ g.modules) {part : List Char} (hpart : part <:+: m.source.toList) :
    Trimmable g (String.ofList part) := by
  refine ⟨fun _ => .own ⟨m, hm, .inl ?_⟩, fun _ => .own ⟨m, hm, .inl ?_⟩⟩
  · rwa [String.toList_ofList]
  · rw [trimmed, String.toList_ofList, String.toList_ofList]
    exact (isPrefix_dropEnd _ _).isInfix.trans hpart

/-- Where edits are made in what is left of a source, the parts between them stay. -/
theorem trimmable_splice (hm : m ∈ g.modules) {es : List Edit} (hes : ∀ e ∈ es, Trimmable g e.text) (pos : Nat)
    {left : List Char} (hleft : left <:+ m.source.toList) : Trimmable g (String.ofList (Edit.splice pos left es)) := by
  -- what is left is a suffix of the source after each edit
  induction es generalizing pos left with
  | nil => exact trimmable_source hm hleft.isInfix
  | cons e es ih =>
    obtain ⟨he, hes⟩ := List.forall_mem_cons.1 hes
    have hsplit := splitAtByte_append (e.start - pos) left
    have hmore := splitAtByte_append (e.stop - e.start) (splitAtByte (e.start - pos) left).2
    have hbefore : (splitAtByte (e.start - pos) left).1 <:+: m.source.toList :=
      List.IsInfix.trans (List.IsPrefix.isInfix ⟨_, hsplit⟩) hleft.isInfix
    have hafter : (splitAtByte (e.stop - e.start) (splitAtByte (e.start - pos) left).2).2 <:+ m.source.toList :=
      List.IsSuffix.trans ⟨_, hmore⟩ (List.IsSuffix.trans ⟨_, hsplit⟩ hleft)
    rw [Edit.splice, String.ofList_append, String.ofList_append, String.ofList_toList]
    exact ((trimmable_source hm hbefore).append he).append (ih hes e.stop hafter)

theorem composed_body (hm : m ∈ g.modules) (externals : List String) :
    Composed g (trimmed (Edit.apply m.source (g.link externals m).edits)) [] rest := by
  have hes : ∀ e ∈ Edit.chosen m.source.utf8ByteSize (g.link externals m).edits, Trimmable g e.text := by
    intro e he
    obtain ⟨item, hitem, target, sources, htarget, hedit⟩ := ModuleGraph.mem_edits_link (Edit.mem_of_mem_chosen he)
    exact trimmable_edit hm hitem htarget hedit
  exact (trimmable_splice hm hes 0 List.suffix_rfl).trimmed rest

/-! ### Wrappers -/

/-- An exported name is one of the graph, and the expression for its value consists of stretches that fit. -/
def FitsGetter (g : ModuleGraph) (getter : String × String) : Prop :=
  g.Mentions getter.1 ∧ ∀ rest, Composed g getter.2 [] rest

theorem mentions_passed (hm : m ∈ g.modules) (hitem : item ∈ m.analysis.items) {name : String}
    (hname : name ∈ item.kind.passed) : g.Mentions name :=
  ⟨m, hm, .inl (List.mem_append_right _ (List.mem_flatMap.2 ⟨item, hitem, hname⟩))⟩

theorem fitsGetter_add (hm : m ∈ g.modules) (hitem : item ∈ m.analysis.items) {l : Linked}
    (hl : ∀ p ∈ l.getters, FitsGetter g p) : ∀ p ∈ (l.add g m.id item).getters, FitsGetter g p := by
  have hpassed : ∀ name ∈ item.kind.passed, g.Mentions name := fun _ => mentions_passed hm hitem
  obtain ⟨span, kind⟩ := item
  cases kind with
  | reExport specifier names =>
    intro p hp
    rcases List.mem_append.1 hp with hp | hp
    · exact hl p hp
    · obtain ⟨n, hn, rfl⟩ := List.mem_map.1 hp
      have himported : g.Mentions n.imported := ⟨m, hm, .inr ⟨_, hitem, .inr (List.mem_map_of_mem hn)⟩⟩
      refine ⟨hpassed _ (List.mem_map_of_mem hn), fun rest => ?_⟩
      exact (((composed_reExportName _).append (.fixed "[" (by decide))).append (.literal himported)).append
        (.fixed "]" (by decide))
  | exportStar specifier asName =>
    cases asName with
    | none => exact hl
    | some name =>
      intro p hp
      rcases List.mem_append.1 hp with hp | hp
      · exact hl p hp
      · obtain rfl := List.mem_singleton.1 hp
        exact ⟨hpassed _ List.mem_cons_self, fun _ => composed_reExportName _⟩
  | defaultExpr semicolonAt => cases semicolonAt <;> exact hl
  | dynamicImport specifier =>
    cases hk : g.resolve? m.id specifier <;> simp only [Linked.add, hk] <;> exact hl
  | importNames specifier names => exact hl
  | remove => exact hl

theorem fitsGetter_link (hm : m ∈ g.modules) (externals : List String) :
    ∀ p ∈ (g.link externals m).getters, FitsGetter g p := by
  have hitems : ∀ items ⊆ m.analysis.items, ∀ l : Linked, (∀ p ∈ l.getters, FitsGetter g p) →
      ∀ p ∈ (items.foldl (Linked.add g m.id) l).getters, FitsGetter g p := by
    intro items
    induction items with
    | nil => exact fun _ _ hl => hl
    | cons item items ih =>
      intro hsub l hl
      obtain ⟨hitem, hsub⟩ := List.cons_subset.1 hsub
      exact ih hsub _ (fitsGetter_add hm hitem hl)
  refine hitems _ (List.Subset.refl _) _ fun p hp => ⟨?_, fun _ => .own ⟨m, hm, .inr ?_⟩⟩
  · exact ⟨m, hm, .inl (List.mem_append_left _ (List.mem_map_of_mem hp))⟩
  · exact List.mem_append_left _ (List.mem_map_of_mem hp)

theorem composed_gettersText {getters : List (String × String)} (h : ∀ p ∈ getters, FitsGetter g p) :
    Composed g (gettersText getters) [] rest := by
  unfold gettersText
  split
  · exact .empty
  · refine ((Composed.fixed "__export(exports, \x7b " (by decide)).append
      (.list (fun _ => True) (by decide) (fun _ => trivial) (fun text htext rest _ => ?_) trivial)).append
      (.fixed " \x7d);\n" (by decide))
    obtain ⟨p, hp, rfl⟩ := List.mem_map.1 htext
    exact ((Composed.literal (h p hp).1).append (.fixed ": () => " (by decide))).append ((h p hp).2 rest)

/-- The ids that are shown for some modules. -/
def ModuleGraph.displayIds (g : ModuleGraph) (modules : List Nat) : List String :=
  (modules.filterMap g.get?).map (displayId ·.id)

theorem composed_moduleText (g : ModuleGraph) (externals : List String) (index : Nat) :
    Composed g (g.moduleText externals index).1 (g.displayIds [index]) rest := by
  unfold ModuleGraph.moduleText ModuleGraph.displayIds
  cases hm : g.get? index with
  | none =>
    rw [List.filterMap_cons_none hm]
    exact .empty
  | some m =>
    rw [List.filterMap_cons_some hm]
    have hmem : m ∈ g.modules := List.mem_of_getElem? hm
    exact ((((((Composed.comment rfl).append (.fixed "\n__modules[" (by decide))).append (.number index)).append
      (.fixed "] = function (module, exports, __require) \x7b\n" (by decide))).append
      (composed_gettersText (fitsGetter_link hmem externals))).append (composed_body hmem externals)).append
      (.fixed "\n\x7d;\n" (by decide))

theorem composed_bodyText (g : ModuleGraph) (modules : List Nat) (externals : List String) :
    Composed g (g.bodyText modules externals).1 (g.displayIds modules) rest := by
  induction modules generalizing externals with
  | nil => exact .empty
  | cons i modules ih =>
    have hids : g.displayIds (i :: modules) = g.displayIds [i] ++ g.displayIds modules := by
      simp only [ModuleGraph.displayIds, ← List.map_append, ← List.filterMap_append, List.singleton_append]
    rw [hids]
    exact (composed_moduleText g externals i).append (ih _)

/-! ### What stands around the wrappers -/

theorem composed_externalText {specifier : String} (h : g.Mentions specifier) (n : Nat) :
    Composed g (ModuleGraph.externalText specifier n) [] rest :=
  ((((Composed.fixed "import * as " (by decide)).append (composed_externalName n)).append
    (.fixed " from " (by decide))).append (.literal h)).append (.fixed ";\n" (by decide))

theorem composed_exportedName (n : Nat) : Composed g (exportedName n) [] rest :=
  (Composed.fixed "__x" (by decide)).append (.number n)

theorem composed_entryNameText {name : String} (h : g.Mentions name) (n : Nat) :
    Composed g (entryNameText name n) [] rest :=
  (composed_bindText (fun _ => composed_exportedName n) fun _ =>
    ((Composed.fixed "__entry[" (by decide)).append (.literal h)).append (.fixed "]" (by decide))).append
    (.fixed "\n" (by decide))

theorem composed_exportedText {name : String} (h : g.Mentions name) (n : Nat) (hrest : EndsWord rest) :
    Composed g (exportedText name n) [] rest := by
  refine ((composed_exportedName n).append (.fixed " as " (by decide))).append ?_
  split
  · next hname => exact .word h hname hrest
  · exact .literal h

theorem composed_exportListText {names : List String} (h : ∀ name ∈ names, g.Mentions name) :
    Composed g (exportListText names) [] rest := by
  unfold exportListText
  split
  · exact .empty
  · refine ((Composed.fixed "export \x7b " (by decide)).append (.list EndsWord (by decide)
      (endsWord_toList ", " rfl (by decide)) (fun text htext rest hrest => ?_)
      (endsWord_toList " \x7d;\n" rfl (by decide) rest))).append (.fixed " \x7d;\n" (by decide))
    obtain ⟨p, hp, rfl⟩ := List.mem_map.1 htext
    exact composed_exportedText (h p.1 (List.fst_mem_of_mem_zipIdx hp)) p.2 hrest

theorem mentions_of_mem_exportedBy {entry : Nat} {name : String} (h : name ∈ (g.exportedBy entry).names) :
    g.Mentions name := by
  obtain ⟨i, -, m, hm, hname⟩ := ModuleGraph.mem_exportedBy.1 h
  exact ⟨m, List.mem_of_getElem? hm, .inl (List.mem_of_mem_filter hname)⟩

theorem mentions_of_mem_stars {entry : Nat} {specifier : String} (h : specifier ∈ (g.exportedBy entry).stars) :
    g.Mentions specifier := by
  obtain ⟨m, hm, hstar⟩ := ModuleGraph.mem_stars_exportedBy.1 h
  obtain ⟨item, hitem, hkind⟩ := List.mem_filterMap.1 (List.mem_of_mem_filter hstar)
  have hkind := (Collects.passed_of_star hkind).1
  exact ⟨m, List.mem_of_getElem? hm, .inr ⟨item, hitem, .inl (by rw [hkind]; rfl)⟩⟩

theorem mentions_of_mem_externals {modules : List Nat} {specifier : String}
    (h : specifier ∈ (g.bodyText modules []).2) : g.Mentions specifier := by
  obtain ⟨i, -, m, hm, item, hitem, hspecifier, -⟩ :=
    (((adds_bodyText g modules []).mem specifier).1 h).resolve_left List.not_mem_nil
  refine ⟨m, List.mem_of_getElem? hm, .inr ⟨item, hitem, .inl ?_⟩⟩
  unfold LinkKind.static? at hspecifier
  split at hspecifier
  · contradiction
  · exact hspecifier

theorem composed_exportsText (g : ModuleGraph) (entry : Nat) : Composed g (g.exportsText entry) [] rest := by
  have hbind : ∀ rest, Composed g (bindText "__entry" (requireText entry) ++ "\n") [] rest := fun _ =>
    ((((Composed.fixed "const __entry = " (by decide)).append (composed_requireText entry)).append
      (.fixed ";" (by decide))).append (.fixed "\n" (by decide)))
  refine ((((hbind _).append (.join ?_)).append (composed_exportListText fun name => mentions_of_mem_exportedBy))).append
    (.join ?_)
  · intro text htext rest
    obtain ⟨p, hp, rfl⟩ := List.mem_map.1 htext
    exact composed_entryNameText (mentions_of_mem_exportedBy (List.fst_mem_of_mem_zipIdx hp)) p.2
  · intro text htext rest
    obtain ⟨specifier, hspecifier, rfl⟩ := List.mem_map.1 htext
    exact ((Composed.fixed "export * from " (by decide)).append (.literal (mentions_of_mem_stars hspecifier))).append
      (.fixed ";\n" (by decide))

theorem composed_chunkText (g : ModuleGraph) (modules : List Nat) (entry : Nat) :
    Composed g (g.chunkText modules entry) (g.displayIds modules) [] := by
  have himports : ∀ rest, Composed g (String.join (g.importTexts modules)) [] rest := by
    refine fun _ => .join fun text htext rest => ?_
    obtain ⟨p, hp, rfl⟩ := List.mem_map.1 htext
    exact composed_externalText (mentions_of_mem_externals (List.fst_mem_of_mem_zipIdx hp)) p.2
  have hall : Composed g (String.join (g.importTexts modules) ++ chunkHead ++ (g.bodyText modules []).1 ++
      g.exportsText entry) (g.displayIds modules ++ []) [] :=
    (((himports _).append (.fixed chunkHead (List.mem_of_getLast? rfl))).append (composed_bodyText g modules [])).append
      (composed_exportsText g entry)
  rwa [List.append_nil] at hall

end

/-! ### All comments -/

theorem along_ends_iff {g : ModuleGraph} {rest : List Char} {ss : List Stretch} (h : Along (Stretch.Fits g) rest ss) :
    Along Stretch.Ends rest ss ↔ ∀ id ∈ ss.filterMap Stretch.comment?, ∀ c ∈ id.toList, isLineEnd c = false := by
  induction ss with
  | nil => exact ⟨fun _ => nofun, fun _ => trivial⟩
  | cons s ss ih =>
    obtain ⟨hs, hss⟩ := h
    cases s with
    | comment id =>
      have hcons : (Stretch.comment id :: ss).filterMap Stretch.comment? = id :: ss.filterMap Stretch.comment? := rfl
      rw [hcons, List.forall_mem_cons, ← ih hss]
      exact and_congr_left fun _ => Stretch.ends_comment_iff hs
    | _ => exact ⟨fun hends => (ih hss).1 hends.2, fun hids => ⟨trivial, (ih hss).2 hids⟩⟩

/-- A chunk is made of texts that all chunks share, numbers, parts of its modules, and strings of the graph. Each
specifier and each name stands as a literal with just that value, or as a word that is one, and is over before what
follows it; the ids stand in comments, which all end with their lines exactly when no line ends in an id. -/
theorem comments_end_iff (g : ModuleGraph) (modules : List Nat) (entry : Nat) :
    ∃ ss, textOf ss = g.chunkText modules entry ∧ Along (Stretch.Fits g) [] ss ∧
      ss.filterMap Stretch.comment? = g.displayIds modules ∧
      (Along Stretch.Ends [] ss ↔ ∀ id ∈ g.displayIds modules, ∀ c ∈ id.toList, isLineEnd c = false) := by
  obtain ⟨ss, htext, hfits, hids⟩ := composed_chunkText g modules entry
  exact ⟨ss, htext, hfits, hids, hids ▸ along_ends_iff hfits⟩

/-- A module in whose id a line ends. -/
def twoLines : ModuleGraph where
  modules := [⟨"a\n\x7d.js", "export const a = 1;", { items := [⟨⟨0, 7⟩, .remove⟩], exports := [("a", "a")] }⟩]

/-- The second line of the id is code: read from the comment on, the chunk goes on with its brace. -/
theorem id_becomes_code : (∀ m ∈ twoLines.modules, analyze m.source m.id = .ok m.analysis) ∧
    twoLines.displayIds [0] = ["a\n\x7d.js"] ∧
    ∃ after, twoLines.chunkText [0] 0 = chunkHead ++ ("// a\n\x7d.js" ++ after) ∧
      (readToken 8 {} ⟨("// a\n\x7d.js" ++ after).toList, 0⟩).token.kind = .punct .rightBrace := by
  have hanalyzed : ∀ m ∈ twoLines.modules, (analyze m.source m.id).toOption = some m.analysis := by decide +kernel
  have hmodule : twoLines.get? 0 = some twoLines.modules.head! := rfl
  have hbody : Edit.apply twoLines.modules.head!.source (twoLines.link [] twoLines.modules.head!).edits =
      "const a = 1;" := by
    rw [Edit.apply_of_pairwise (by decide +kernel)]
    decide +kernel
  have hwrapper : twoLines.moduleText [] 0 = ("// a\n\x7d.js" ++
      "\n__modules[0] = function (module, exports, __require) \x7b\n" ++
      "__export(exports, \x7b \x22a\x22: () => a \x7d);\nconst a = 1;\n\x7d;\n", []) := by
    simp only [ModuleGraph.moduleText, hmodule, hbody]
    decide +kernel
  have hexports : twoLines.exportsText 0 = "const __entry = __require(0);\n" ++
      "const __x0 = __entry[\x22a\x22];\nexport \x7b __x0 as a \x7d;\n" := by decide +kernel
  refine ⟨fun m hm => eq_ok_of_toOption (hanalyzed m hm), rfl,
    "\n__modules[0] = function (module, exports, __require) \x7b\n" ++
      "__export(exports, \x7b \x22a\x22: () => a \x7d);\nconst a = 1;\n\x7d;\n" ++ twoLines.exportsText 0, ?_, ?_⟩
  · simp only [ModuleGraph.chunkText, ModuleGraph.bodyText, hwrapper, List.zipIdx_nil, List.map_nil, String.join_nil,
      String.empty_append, String.append_empty, String.append_assoc]
  · rw [hexports]
    decide +kernel

end LiveNotes.Bundle
