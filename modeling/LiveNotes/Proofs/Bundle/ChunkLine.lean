import LiveNotes.Proofs.Script.Statements
import LiveNotes.Bundle.ChunkText
import Mathlib.Data.List.Forall2

namespace LiveNotes.Script

open Text

variable {text rest : List Char} {tokens : List TokenKind}

theorem endsWord_cons {c : Char} (h : isIdentifierPart c = false ∧ c ≠ '\x5c') (text : List Char) :
    EndsWord (c :: text) := by
  intro d hd
  rw [List.head?_cons, Option.mem_def, Option.some.injEq] at hd
  exact hd ▸ h

theorem Lexes.word (gap : Gap) {w : String} (hw : isIdentifierName w = true) (hends : EndsWord text)
    (h : Lexes text tokens rest) : Lexes (gap.text ++ (w.toList ++ text)) (.word w false :: tokens) rest :=
  .token gap (startsWith_word hw hends) h

theorem Lexes.quoted (gap : Gap) (s : String) (h : Lexes text tokens rest) :
    Lexes (gap.text ++ ((quoted s).toList ++ text)) (.string s false :: tokens) rest :=
  .token gap (startsWith_quoted s text) h

end LiveNotes.Script

namespace LiveNotes.Bundle
open Script Text ModuleGraph

theorem isIdentifierName_append {s t : String} (hs : isIdentifierName s = true)
    (ht : ∀ c ∈ t.toList, isIdentifierPart c = true) : isIdentifierName (s ++ t) = true := by
  rw [isIdentifierName] at hs
  split at hs
  · contradiction
  · next c word hword =>
    obtain ⟨hstart, hparts⟩ := Bool.and_eq_true_iff.1 hs
    rw [isIdentifierName, String.toList_append, hword, List.cons_append]
    simp only [hstart, Bool.true_and, List.all_append, hparts]
    exact List.all_eq_true.2 ht

theorem isIdentifierName_append_toString {s : String} (hs : isIdentifierName s = true) (n : Nat) :
    isIdentifierName (s ++ toString n) = true := by
  refine isIdentifierName_append hs fun c hc => ?_
  rw [Nat.toString_eq_repr, Nat.repr, String.toList_ofList] at hc
  exact isIdentifierPart_of_isDecimalDigit (isDecimalDigit_of_mem_toDigits hc)

/-- No word of the language starts with an underscore. -/
theorem isLocal_of_underscore {w : String} (h : w.toList.head? = some '_') : Grammar.IsLocal w := by
  have hreserved : ∀ v ∈ reservedWords, v.toList.head? ≠ some '_' := by decide
  have hstrict : ∀ v ∈ Grammar.strictWords, v.toList.head? ≠ some '_' := by decide
  refine ⟨?_, ?_⟩
  · rw [isReserved, Bool.eq_false_iff, Ne, List.contains_iff_mem]
    exact fun hmem => hreserved w hmem h
  · rw [Bool.eq_false_iff, Ne, List.contains_iff_mem]
    exact fun hmem => hstrict w hmem h

/-- The lines of a chunk that make it a module around its modules. -/
inductive ChunkLine where
  | importAll (specifier : String) (number : Nat)
  | bindEntry (index : Nat)
  | bindName (name : String) (number : Nat)
  | exportNames (names : List String)
  | exportStar (specifier : String)

/-- A variable and the name that it is exported by. -/
def specifierOf (p : String × Nat) : String × ExportedName :=
  (exportedName p.2, ⟨p.1, !isIdentifierName p.1⟩)

namespace ChunkLine

def text : ChunkLine → String
  | importAll specifier number => externalText specifier number
  | bindEntry index => bindText "__entry" (requireText index) ++ "\n"
  | bindName name number => entryNameText name number
  | exportNames names => exportListText names
  | exportStar specifier => starText specifier

def tokens : ChunkLine → List TokenKind
  | importAll specifier number => [.word "import" false, .punct .star, .word "as" false,
      .word (externalName number) false, .word "from" false, .string specifier false, .punct .semicolon]
  | bindEntry index => [.word "const" false, .word "__entry" false, .punct .assign, .word "__require" false,
      .punct .leftParen, .number (toString index), .punct .rightParen, .punct .semicolon]
  | bindName name number => [.word "const" false, .word (exportedName number) false, .punct .assign,
      .word "__entry" false, .punct .leftBracket, .string name false, .punct .rightBracket, .punct .semicolon]
  | exportNames names => .word "export" false :: .punct .leftBrace ::
      Grammar.specifiersTokens (names.zipIdx.map specifierOf) ++ [.punct .rightBrace, .punct .semicolon]
  | exportStar specifier => [.word "export" false, .punct .star, .word "from" false, .string specifier false,
      .punct .semicolon]

/-- A list of exports is written only if there are any. -/
def IsWritten : ChunkLine → Prop
  | exportNames names => names ≠ []
  | _ => True

end ChunkLine

theorem lexes_semicolon (rest : List Char) : Lexes (';' :: '\n' :: rest) [.punct .semicolon] ('\n' :: rest) :=
  .token .none (startsWith_punct (by decide) (by decide) rfl) (.done _)

theorem lexes_importAll (gap : Gap) (specifier : String) (number : Nat) (rest : List Char) :
    Lexes (gap.text ++ ((externalText specifier number).toList ++ rest)) (ChunkLine.importAll specifier number).tokens
      ('\n' :: rest) := by
  have hname : isIdentifierName (externalName number) = true := isIdentifierName_append_toString (by decide) number
  have hsource := Lexes.quoted .space specifier (lexes_semicolon rest)
  have hbound := Lexes.word .space hname (endsWord_cons (by decide) _)
    (Lexes.word .space (w := "from") (by decide) (endsWord_cons (by decide) _) hsource)
  have hstar := Lexes.token .space (startsWith_punct (c := '*') (by decide) (by decide) rfl)
    (Lexes.word .space (w := "as") (by decide) (endsWord_cons (by decide) _) hbound)
  have hall := Lexes.word gap (w := "import") (by decide) (endsWord_cons (by decide) _) hstar
  simpa [externalText, Gap.text, ChunkLine.tokens] using hall

theorem lexes_bindEntry (gap : Gap) (index : Nat) (rest : List Char) :
    Lexes (gap.text ++ ((ChunkLine.bindEntry index).text.toList ++ rest)) (ChunkLine.bindEntry index).tokens
      ('\n' :: rest) := by
  have hindex : EndsNumber (')' :: ';' :: '\n' :: rest) := by
    intro c hc
    cases hc
    decide
  have harguments := Lexes.token .none (startsWith_number index hindex)
    (Lexes.token .none (startsWith_punct (c := ')') (by decide) (by decide) rfl) (lexes_semicolon rest))
  have hvalue := Lexes.word .space (w := "__require") (by decide) (endsWord_cons (by decide) _)
    (Lexes.token .none (startsWith_punct (c := '(') (by decide) (by decide) rfl) harguments)
  have hassign := Lexes.token .space (startsWith_punct (c := '=') (by decide) (by decide) rfl) hvalue
  have hall := Lexes.word gap (w := "const") (by decide) (endsWord_cons (by decide) _)
    (Lexes.word .space (w := "__entry") (by decide) (endsWord_cons (by decide) _) hassign)
  simpa [ChunkLine.text, bindText, requireText, Gap.text, ChunkLine.tokens] using hall

theorem lexes_bindName (gap : Gap) (name : String) (number : Nat) (rest : List Char) :
    Lexes (gap.text ++ ((entryNameText name number).toList ++ rest)) (ChunkLine.bindName name number).tokens
      ('\n' :: rest) := by
  have hname : isIdentifierName (exportedName number) = true := isIdentifierName_append_toString (by decide) number
  have hkey := Lexes.quoted .none name
    (Lexes.token .none (startsWith_punct (c := ']') (by decide) (by decide) rfl) (lexes_semicolon rest))
  have hvalue := Lexes.word .space (w := "__entry") (by decide) (endsWord_cons (by decide) _)
    (Lexes.token .none (startsWith_punct (c := '[') (by decide) (by decide) rfl) hkey)
  have hassign := Lexes.token .space (startsWith_punct (c := '=') (by decide) (by decide) rfl) hvalue
  have hall := Lexes.word gap (w := "const") (by decide) (endsWord_cons (by decide) _)
    (Lexes.word .space hname (endsWord_cons (by decide) _) hassign)
  simpa [entryNameText, bindText, Gap.text, ChunkLine.tokens] using hall

theorem lexes_exportStar (gap : Gap) (specifier : String) (rest : List Char) :
    Lexes (gap.text ++ ((starText specifier).toList ++ rest)) (ChunkLine.exportStar specifier).tokens
      ('\n' :: rest) := by
  have hsource := Lexes.word .space (w := "from") (by decide) (endsWord_cons (by decide) _)
    (Lexes.quoted .space specifier (lexes_semicolon rest))
  have hall := Lexes.word gap (w := "export") (by decide) (endsWord_cons (by decide) _)
    (Lexes.token .space (startsWith_punct (c := '*') (by decide) (by decide) rfl) hsource)
  simpa [starText, Gap.text, ChunkLine.tokens] using hall

theorem lexes_exportedText (p : String × Nat) {rest : List Char} (hrest : EndsWord rest) :
    Lexes (' ' :: ((exportedText p.1 p.2).toList ++ rest))
      (Grammar.specifierTokens (specifierOf p).1 (specifierOf p).2) rest := by
  obtain ⟨name, number⟩ := p
  have hlocal : isIdentifierName (exportedName number) = true := isIdentifierName_append_toString (by decide) number
  have hexported : Lexes (' ' :: ((if isIdentifierName name then name else quoted name).toList ++ rest))
      [Grammar.nameKind ⟨name, !isIdentifierName name⟩] rest := by
    cases hname : isIdentifierName name with
    | true => exact Lexes.word .space hname hrest (.done rest)
    | false =>
      have hquoted := Lexes.quoted .space name (.done rest)
      simpa [Gap.text, Grammar.nameKind] using hquoted
  have hall := Lexes.word .space hlocal (endsWord_cons (by decide) _)
    (Lexes.word .space (w := "as") (by decide) (endsWord_cons (by decide) _) hexported)
  simpa [exportedText, Gap.text, Grammar.specifierTokens, specifierOf] using hall

theorem lexes_exportedTexts {names : List (String × Nat)} (hnames : names ≠ []) {rest : List Char}
    (hrest : EndsWord rest) :
    Lexes (' ' :: ((", ".intercalate (names.map fun p => exportedText p.1 p.2)).toList ++ rest))
      (Grammar.specifiersTokens (names.map specifierOf)) rest := by
  induction names with
  | nil => contradiction
  | cons p more ih =>
    cases more with
    | nil =>
      have hone := lexes_exportedText p hrest
      simpa [String.toList_intercalate, Grammar.specifiersTokens, specifierOf] using hone
    | cons q more =>
      have hmore := ih (List.cons_ne_nil q more)
      have hcomma := Lexes.token .none (startsWith_punct (c := ',') (by decide) (by decide) rfl) hmore
      have hall := (lexes_exportedText p (endsWord_cons (by decide) _)).append hcomma
      simpa [String.toList_intercalate, List.intercalate_cons_cons, Gap.text, Grammar.specifiersTokens] using hall

theorem lexes_exportNames (gap : Gap) {names : List String} (hnames : names ≠ []) (rest : List Char) :
    Lexes (gap.text ++ ((exportListText names).toList ++ rest)) (ChunkLine.exportNames names).tokens
      ('\n' :: rest) := by
  have hclose := Lexes.token .space (startsWith_punct (c := '}') (by decide) (by decide) rfl) (lexes_semicolon rest)
  have hzip : names.zipIdx ≠ [] := by simpa using hnames
  have hlist := (lexes_exportedTexts hzip (endsWord_cons (by decide) _)).append hclose
  have hall := Lexes.word gap (w := "export") (by decide) (endsWord_cons (by decide) _)
    (Lexes.token .space (startsWith_punct (c := '{') (by decide) (by decide) rfl) hlist)
  simpa [exportListText, hnames, Gap.text, ChunkLine.tokens] using hall

theorem ChunkLine.lexes (gap : Gap) {line : ChunkLine} (h : line.IsWritten) (rest : List Char) :
    Lexes (gap.text ++ (line.text.toList ++ rest)) line.tokens ('\n' :: rest) := by
  cases line with
  | importAll specifier number => exact lexes_importAll gap specifier number rest
  | bindEntry index => exact lexes_bindEntry gap index rest
  | bindName name number => exact lexes_bindName gap name number rest
  | exportNames names => exact lexes_exportNames gap h rest
  | exportStar specifier => exact lexes_exportStar gap specifier rest

/-- The lines one after the other; each ends the line that the next one starts behind. -/
theorem lexes_lines {lines : List ChunkLine} (h : ∀ line ∈ lines, line.IsWritten) (gap : Gap) (rest : List Char) :
    ∃ last : Gap, Lexes (gap.text ++ (lines.flatMap (·.text.toList) ++ rest)) (lines.flatMap (·.tokens))
      (last.text ++ rest) := by
  induction lines generalizing gap with
  | nil => exact ⟨gap, .done _⟩
  | cons line lines ih =>
    obtain ⟨hline, hlines⟩ := List.forall_mem_cons.1 h
    have hfirst := line.lexes gap hline (lines.flatMap (·.text.toList) ++ rest)
    obtain ⟨last, hrest⟩ := ih hlines .line
    refine ⟨last, ?_⟩
    rw [List.flatMap_cons, List.flatMap_cons, List.append_assoc]
    exact hfirst.append hrest

namespace ChunkLine

/-- The names that a line exports, and the variables for them. -/
def exports : ChunkLine → List (String × String)
  | exportNames names => names.zipIdx.map fun (name, number) => (name, exportedName number)
  | _ => []

def imports : ChunkLine → List Import
  | importAll specifier number => [⟨specifier, false, [⟨"*", externalName number⟩]⟩]
  | exportStar specifier => [⟨specifier, false, [⟨"*", "*"⟩]⟩]
  | _ => []

/-- What a line says, whatever module it stands in. -/
structure ReadAs (line : ChunkLine) (t : Tree) : Prop where
  exports : ∀ source, (itemAnalysis source t).exports = line.exports
  imports : ∀ source, (itemAnalysis source t).imports = line.imports
  names : exportedNames t = line.exports.map (·.1)
  calls : dynamicImports t = []
  faultless : t.anyLabel (· == .coverDefault) = false
  statement : t.label ≠ .expressionStatement

/-- How many parts a line has, which bounds the steps of the loop over them. -/
def width : ChunkLine → Nat
  | exportNames names => names.length
  | _ => 1

theorem readAs_importAll (specifier : String) (number : Nat) (span inner : Span) :
    (importAll specifier number).ReadAs (.node (.importDecl .evaluation specifier false false) span
      [.node (.importAll (externalName number)) inner []]) where
  exports _ := rfl
  imports _ := rfl
  names := rfl
  calls := rfl
  faultless := rfl
  statement := Label.noConfusion

theorem readAs_exportStar (specifier : String) (span : Span) :
    (exportStar specifier).ReadAs (.node (.exportAll none specifier false) span []) where
  exports _ := rfl
  imports _ := rfl
  names := rfl
  calls := rfl
  faultless := rfl
  statement := Label.noConfusion

theorem exportName?_specifiers {names : List (String × Nat)} {ts : List Tree}
    (h : ts.map Tree.label = (names.map specifierOf).map fun n => .exportName ⟨n.1, false⟩ n.2 false) :
    ts.filterMap exportName? = names.map fun p => ⟨exportedName p.2, p.1⟩ := by
  have hlabel : ts.filterMap exportName? = (ts.map Tree.label).filterMap fun l => exportName? (.node l ⟨0, 0⟩ []) := by
    rw [List.filterMap_map]
    rfl
  rw [hlabel, h]
  simp [exportName?, specifierOf, Function.comp_def]

theorem dynamicImportsAll_eq_nil {ts : List Tree} (h : ∀ t ∈ ts, dynamicImports t = []) :
    dynamicImportsAll ts = [] := by
  induction ts with
  | nil => rfl
  | cons t ts ih =>
    obtain ⟨ht, hts⟩ := List.forall_mem_cons.1 h
    rw [dynamicImportsAll, ht, ih hts]
    rfl

theorem readAs_exportNames {names : List String} {t : Tree} (h : Grammar.IsExportList (names.zipIdx.map specifierOf) t) :
    (exportNames names).ReadAs t := by
  obtain ⟨label, span, kids⟩ := t
  obtain ⟨hlabel, hspecifiers, hleaves⟩ := h
  rw [Tree.label_node] at hlabel
  rw [Tree.kids_node] at hspecifiers hleaves
  subst hlabel
  have hnames := exportName?_specifiers hspecifiers
  have hkids : ∀ k ∈ kids, ∃ x name inner, k = .node (.exportName x name false) inner [] := by
    intro k hk
    have hmem := List.mem_map_of_mem (f := Tree.label) hk
    rw [hspecifiers] at hmem
    obtain ⟨n, -, hn⟩ := List.mem_map.1 hmem
    obtain ⟨label, inner, leaf⟩ := k
    obtain rfl : leaf = [] := hleaves _ hk
    obtain rfl : _ = label := hn
    exact ⟨_, _, _, rfl⟩
  refine ⟨fun source => ?_, fun source => rfl, ?_, ?_, ?_, Label.noConfusion⟩
  · show [] ++ (kids.filterMap exportName?).map _ = _
    rw [hnames]
    simp [exports]
  · have hnamed : exportedNames (.node (.exportList none false) span kids) = (kids.filterMap exportName?).map (·.here) := by
      rw [List.map_filterMap]
      refine List.filterMap_congr fun k hk => ?_
      obtain ⟨x, name, inner, rfl⟩ := hkids k hk
      rfl
    rw [hnamed, hnames]
    simp [exports]
  · have hnone : dynamicImportsAll kids = [] := dynamicImportsAll_eq_nil fun k hk => by
      obtain ⟨x, name, inner, rfl⟩ := hkids k hk
      rfl
    show [] ++ dynamicImportsAll kids = []
    rw [hnone]
    rfl
  · have hnone : Tree.anyLabels (· == .coverDefault) kids = false := Tree.anyLabels_eq_false fun k hk => by
      obtain ⟨x, name, inner, rfl⟩ := hkids k hk
      rfl
    rw [Tree.anyLabel, hnone]
    rfl

theorem readAs_bindName (name : String) (number : Nat) (s s₁ s₂ s₃ s₄ s₅ : Span) :
    (bindName name number).ReadAs (.node (.variableList .const) s [.node .declarator s₁
      [.node (.binding (exportedName number)) s₂ [], .node (.index false) s₃
        [.node (.read "__entry") s₄ [], .node (.string name false) s₅ []]]]) where
  exports _ := rfl
  imports _ := rfl
  names := rfl
  calls := rfl
  faultless := rfl
  statement := Label.noConfusion

theorem readAs_bindEntry (index : Nat) (s s₁ s₂ s₃ s₄ s₅ : Span) :
    (bindEntry index).ReadAs (.node (.variableList .const) s [.node .declarator s₁
      [.node (.binding "__entry") s₂ [], .node (.call false false) s₃
        [.node (.read "__require") s₄ [], .node (.number (toString index)) s₅ []]]]) where
  exports _ := rfl
  imports _ := rfl
  names := rfl
  calls := rfl
  faultless := rfl
  statement := Label.noConfusion

theorem isLocal_append {s t : String} (h : s.toList.head? = some '_') : Grammar.IsLocal (s ++ t) := by
  refine isLocal_of_underscore ?_
  rw [String.toList_append, List.head?_append, h]
  rfl

open Grammar in
theorem reads {line : ChunkLine} (hline : line.IsWritten) {ctx : Context} {c : Cursor} (htypes : c.dialect.types = false)
    (hyields : ctx.yields = false) (hdecorator : ctx.decorator = false) (hpos : 1 ≤ c.size) (hsize : line.width ≤ c.size) (n : Nat)
    (hshows : c.Shows line.tokens) :
    ∃ t, statement (readers (n + 2)) ctx false c = some (t, Cursor.next^[line.tokens.length] c) ∧ line.ReadAs t := by
  cases line with
  | importAll specifier number =>
    exact ⟨_, run_statement_importAll (isLocal_append rfl) hshows, readAs_importAll ..⟩
  | exportStar specifier => exact ⟨_, run_statement_exportAll hshows, readAs_exportStar ..⟩
  | exportNames names =>
    have hnames : names ≠ [] := hline
    have hzip : names.zipIdx.map specifierOf ≠ [] := by simpa using hnames
    have hlocal : ∀ p ∈ names.zipIdx.map specifierOf, IsLocal p.1 := by
      intro p hp
      obtain ⟨q, -, rfl⟩ := List.mem_map.1 hp
      exact isLocal_append rfl
    have hlength : (names.zipIdx.map specifierOf).length ≤ c.size := by simpa [width] using hsize
    obtain ⟨t, hrun, ht⟩ := run_statement_exportList (readers (n + 2)) ctx hzip hlocal htypes hlength hshows
    refine ⟨t, ?_, readAs_exportNames ht⟩
    rw [hrun]
    simp [tokens]
  | bindName name number =>
    obtain ⟨hconst, hname, hassign, hvalue⟩ := hshows
    have hindex := run_assignment_index ctx (c := c.next.next.next) (isLocal_of_underscore rfl) (by decide) hyields hdecorator
      htypes hpos n hvalue
    have hrun := run_statement_const (isLocal_append rfl) htypes (n + 1) ⟨hconst, hname, hassign, trivial⟩ hindex rfl hvalue.2.2.2.2.1.kind
    exact ⟨_, hrun, readAs_bindName ..⟩
  | bindEntry index =>
    obtain ⟨hconst, hname, hassign, hvalue⟩ := hshows
    have hcall := run_assignment_call ctx (c := c.next.next.next) (isLocal_of_underscore rfl) (by decide) hyields
      htypes hpos n hvalue
    have hrun := run_statement_const (isLocal_of_underscore rfl) htypes (n + 1) ⟨hconst, hname, hassign, trivial⟩ hcall rfl hvalue.2.2.2.2.1.kind
    exact ⟨_, hrun, readAs_bindEntry ..⟩

end ChunkLine

end LiveNotes.Bundle
