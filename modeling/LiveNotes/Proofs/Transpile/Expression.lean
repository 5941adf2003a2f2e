import LiveNotes.Proofs.Script.Grammar.Programs
import LiveNotes.Proofs.Script.Part
import LiveNotes.Proofs.Script.Program
import LiveNotes.Proofs.Script.Sequence
import LiveNotes.Transpile

/-! Modules that give the value of an expression. Its text stands right behind an arrow, where a brace opens the body of
a function and a comma ends the function. So an expression that starts with a brace is read as statements, one with
commas is not read at all, and every other one is what the function returns. -/

namespace LiveNotes.Script.Grammar

open Parse

variable {rec : Readers} {ctx : Context} {c : Cursor} {n : Nat}

/-! ### Functions without parameters -/

theorem run_arrowLikelihood (h : c.Shows [.punct .leftParen, .punct .rightParen, .punct .arrow]) :
    arrowLikelihood c = some (.yes, c) := by
  obtain ⟨hopen, hclose, harrow, -⟩ := h
  simp [arrowLikelihood, lookahead, hopen.kind, parenLikelihood, run_expectPunct hopen.kind, hclose.kind, harrow.kind]

theorem run_parameters_nil (h : c.Shows [.punct .leftParen, .punct .rightParen]) (owner : ParameterOwner) :
    parameters rec ctx owner c =
      some (.node .params ⟨c.token.span.start, c.next.next.lastStop⟩ [], c.next.next) := by
  obtain ⟨hopen, hclose, -⟩ := h
  have hnone : commaStep .rightParen (parameter rec ctx owner) ([], false) c.next = some (none, c.next) := by
    simp [commaStep, hclose.kind]
  simp [parameters, run_expectPunct hopen.kind, hclose.kind, commaList, commaEnded, run_loop_stop hnone,
    run_expectPunct hclose.kind]

/-- What an empty list of parameters in front of the current token becomes. -/
def noParameters (c : Cursor) : Tree := .node .params ⟨c.token.span.start, c.next.next.lastStop⟩ []

theorem run_parenArrow (h : c.Shows [.punct .leftParen, .punct .rightParen, .punct .arrow]) :
    parenArrow rec ctx c = arrowRest rec ctx c.token.span.start false (noParameters c) c.next.next := by
  have hps : parameters rec { awaits := ctx.awaits, yields := ctx.yields } .arrow c =
      some (noParameters c, c.next.next) := run_parameters_nil ⟨h.1, h.2.1, trivial⟩ .arrow
  obtain ⟨hopen, -, harrow, -⟩ := h
  have htypes : typeParameters rec c = some ((), c) := by simp [typeParameters, hopen.kind]
  have hresult : resultAnnotation rec c.next.next = some (false, c.next.next) := by
    simp [ resultAnnotation, harrow.kind]
  have hasync : (TokenKind.punct .leftParen == .word "async" false) = false := rfl
  cases hrest : arrowRest rec ctx c.token.span.start false (noParameters c) c.next.next with
  | none => simp [parenArrow, hopen.kind, hasync, htypes, hps, hresult, hrest]
  | some r => simp [parenArrow, hopen.kind, hasync, htypes, hps, hresult, hrest]

theorem run_assignment_arrow (hyields : ctx.yields = false)
    (h : c.Shows [.punct .leftParen, .punct .rightParen, .punct .arrow]) :
    assignment rec ctx c = arrowRest rec { ctx with resultTypes := true } c.token.span.start false
      (noParameters c) c.next.next := by
  have hfound : arrow? rec ctx c = (arrowRest rec { ctx with resultTypes := true } c.token.span.start false
      (noParameters c) c.next.next).map fun r => (some r.1, r.2) := by
    simp [arrow?, run_arrowLikelihood h, run_parenArrow h]
  generalize arrowRest rec { ctx with resultTypes := true } c.token.span.start false (noParameters c) c.next.next = r
    at hfound ⊢
  cases r with
  | none => simp [assignment, hyields, hfound]
  | some r => simp [assignment, hyields, hfound, h.1.pureFunction]

/-! ### The default export -/

/-- The tokens in front of the body of a function without parameters that is a default export. -/
def frontTokens : List TokenKind :=
  [.word "export" false, .word "default" false, .punct .leftParen, .punct .rightParen, .punct .arrow]

/-- A default export of a function without parameters, from its arrow on. -/
theorem run_statement_default (hyields : ctx.yields = false) (h : c.Shows frontTokens) :
    statement (readers (n + 1)) ctx false c = (do
      let t ← arrowRest (readers n) { ctx with resultTypes := true } c.next.next.token.span.start false
        (noParameters c.next.next)
      endStatement
      finish .exportDefault c.token.span.start [t] : Parse Tree) c.next.next.next.next := by
  obtain ⟨hexport, hdefault, harrow⟩ := h
  have hopen := harrow.1
  have hvalue : readers (n + 1) (.assignment ctx) c.next.next = _ := run_assignment_arrow hyields harrow
  have hstatement : statement (readers (n + 1)) ctx false c =
      exportDefault (readers (n + 1)) ctx c.token.span.start (.hole c.token.span.start) c.next := by
    simp [statement, plainStatement, hexport.kind, hexport.pureFunction, wordStatement, exportDeclaration,
      run_expectWord hexport.kind, hdefault.kind]
  rw [hstatement]
  simp [exportDefault, run_expectWord hdefault.kind, laterDecorators, hopen.kind, hopen.pureFunction, hvalue, Tree.isHole, Tree.hole]

/-- Behind an arrow, a brace opens statements. -/
theorem run_arrowRest_block {start : Nat} {ps : Tree} (harrow : c.token.kind = .punct .arrow)
    (hline : c.token.newline = false) (hbrace : c.next.token.kind = .punct .leftBrace) :
    arrowRest rec ctx start false ps c = (do
      let body ← functionBody rec (insideArrow ctx false)
      finish (.arrow {}) start [ps, body] : Parse Tree) c.next := by
  simp [arrowRest, hline, run_expectPunct harrow, hbrace]

/-- Behind an arrow, an expression without commas follows if no brace does. -/
theorem run_arrowRest_concise {start : Nat} {ps : Tree} (harrow : c.token.kind = .punct .arrow)
    (hline : c.token.newline = false) (hbrace : c.next.token.kind ≠ .punct .leftBrace) :
    arrowRest rec ctx start false ps c = (do
      let body ← rec (.assignment { insideArrow ctx false with returns := false, resultTypes := ctx.resultTypes })
      finish (.arrow { concise := true }) start [ps, body] : Parse Tree) c.next := by
  simp [arrowRest, hline, run_expectPunct harrow, hbrace]

theorem run_endStatement_finish (h : c.token.kind = .finish) : endStatement c = some ((), c) := by
  simp [endStatement, canEndStatement, h]

end LiveNotes.Script.Grammar

namespace LiveNotes.Transpile

open Script Script.Grammar Parse

variable {kind : SourceKind} {content : String} {e t : Tree} {ctx : Context} {c : Cursor}

/-- What stands in front of the code in a module that gives the value of an expression. -/
def arrowFront : List Char := "export default () =>".toList

theorem toList_expressionModule (content : String) :
    (expressionModule content).toList = arrowFront ++ ' ' :: content.toList := by
  have hfront : "export default () => ".toList = arrowFront ++ [' '] := by decide
  unfold expressionModule
  rw [String.toList_append, hfront, List.append_assoc]
  rfl

/-- The cursor at the first token of the code, which stands a space behind the arrow. -/
def codeCursor (kind : SourceKind) (content : String) : Cursor :=
  let place : Place := ⟨' ' :: content.toList, Text.byteLength arrowFront⟩
  Cursor.atPlace
    { start := place, token := ⟨.invalid, ⟨0, 0⟩, false, false, false⟩, after := place, lastStop := place.pos,
      dialect := kind.dialect, size := (expressionModule content).toList.length + 1 }
    {} place

/-- Readers of goals that nest as deep as what stands behind an arrow can. -/
def codeReaders (content : String) : Readers := readers (4 * (expressionModule content).toList.length + 14)

/-- The code is an expression: it is read as `e` up to its end, and no fault is met. -/
def IsExpression (kind : SourceKind) (content : String) (e : Tree) : Prop :=
  ∃ c, expression (codeReaders content) {} (codeCursor kind content) = some (e, c) ∧ c.token.kind = .finish ∧
    c.flawed = false ∧ e.anyLabel (· == .coverDefault) = false

instance (kind : SourceKind) (content : String) (e : Tree) : Decidable (IsExpression kind content e) :=
  decidable_of_iff (∃ r ∈ expression (codeReaders content) {} (codeCursor kind content),
      r.1 = e ∧ r.2.token.kind = .finish ∧ r.2.flawed = false ∧ e.anyLabel (· == .coverDefault) = false)
    ⟨fun ⟨⟨_, c⟩, hread, he, hgood⟩ => ⟨c, he ▸ hread, hgood⟩, fun ⟨c, hread, hgood⟩ => ⟨(e, c), hread, rfl, hgood⟩⟩

/-- The first token of the code is a brace. -/
def OpensBlock (kind : SourceKind) (content : String) : Prop :=
  (codeCursor kind content).token.kind = .punct .leftBrace

instance (kind : SourceKind) (content : String) : Decidable (OpensBlock kind content) :=
  inferInstanceAs (Decidable (_ = _))

/-- A script is the default export of one function, which has no parameters and returns `e`. -/
def Returns (t e : Tree) : Prop :=
  ∃ whole item arrow params, t = .node .program whole
    [.node .exportDefault item [.node (.arrow { concise := true }) arrow [.node .params params [], e]]]

/-- Where the code is read, the wrapper has been read as far as its arrow. -/
theorem shows_expressionModule (kind : SourceKind) (content : String) :
    (startCursor kind (expressionModule content).toList).Shows frontTokens ∧
      Cursor.next^[5] (startCursor kind (expressionModule content).toList) = codeCursor kind content ∧
      (Cursor.next^[4] (startCursor kind (expressionModule content).toList)).token.newline = false := by
  unfold codeCursor
  rw [toList_expressionModule]
  exact ⟨⟨⟨rfl, rfl, rfl⟩, ⟨rfl, rfl, rfl⟩, ⟨rfl, rfl, rfl⟩, ⟨rfl, rfl, rfl⟩, ⟨rfl, rfl, rfl⟩, trivial⟩, rfl, rfl⟩

theorem hashbangLine_expressionModule (content : String) : hashbangLine (expressionModule content).toList = none := by
  rw [toList_expressionModule]
  rfl

/-- The statement that the module of an expression starts with, from its arrow on. -/
theorem run_statement_expressionModule (kind : SourceKind) (content : String) :
    ∃ (start start' : Nat) (params : Span) (c : Cursor),
      c.token.kind = .punct .arrow ∧ c.token.newline = false ∧ c.next = codeCursor kind content ∧
      ∀ waits, readers (4 * (expressionModule content).toList.length + 16) (.statement (kind.context waits) false)
        (startCursor kind (expressionModule content).toList) = (do
          let t ← arrowRest (codeReaders content) (kind.context waits) start' false (.node .params params [])
          endStatement
          finish .exportDefault start [t] : Parse Tree) c := by
  obtain ⟨hshows, hcode, hline⟩ := shows_expressionModule kind content
  exact ⟨_, _, _, _, hshows.2.2.2.2.1.kind, hline, hcode, fun waits => run_statement_default rfl hshows⟩

/-- The function returns the code up to its first comma outside of brackets, unless a brace opens it. -/
theorem run_arrowRest_value {start : Nat} {params : Span} {c₀ : Cursor} {waits : Bool}
    (harrow : c₀.token.kind = .punct .arrow) (hline : c₀.token.newline = false) (hcode : c₀.next = codeCursor kind content)
    (hbrace : ¬ OpensBlock kind content)
    (halone : codeReaders content (.assignment {}) (codeCursor kind content) = some (e, c)) :
    arrowRest (codeReaders content) (kind.context waits) start false (.node .params params []) c₀ =
      some (.node (.arrow { concise := true }) ⟨start, c.lastStop⟩ [.node .params params [], e], c) := by
  have hinner : ({ insideArrow (kind.context waits) false with
      returns := false, resultTypes := (kind.context waits).resultTypes } : Context) = {} := rfl
  rw [run_arrowRest_concise harrow hline (hcode ▸ hbrace), hcode, hinner, run_bind, halone]
  rfl

/-- Code without a comma outside of brackets is what the function returns, unless a brace opens it. -/
theorem readText_expressionModule (halone : codeReaders content (.assignment {}) (codeCursor kind content) = some (e, c))
    (hbrace : ¬ OpensBlock kind content) (hfinish : c.token.kind = .finish) :
    ∃ t, Returns t e ∧ ∀ waits, readText kind (kind.context waits) (expressionModule content).toList
      (expressionModule content).utf8ByteSize = some (t, c) := by
  obtain ⟨start, start', params, c₀, harrow, hline, hcode, hstatement⟩ := run_statement_expressionModule kind content
  refine ⟨_, ⟨⟨0, (expressionModule content).utf8ByteSize⟩, ⟨start, c.lastStop⟩, ⟨start', c.lastStop⟩, params, rfl⟩, fun waits => ?_⟩
  have hfirst := hstatement waits
  rw [run_bind, run_arrowRest_value harrow hline hcode hbrace halone, Option.bind_some, run_bind,
    run_endStatement_finish hfinish] at hfirst
  have hopen : (startCursor kind (expressionModule content).toList).token.kind ≠ .finish := by
    rw [(shows_expressionModule kind content).1.1.kind]
    exact TokenKind.noConfusion
  refine readText_of_bodyItems (hashbangLine_expressionModule content)
    (bodyItems_succ ?_ hfirst Label.noConfusion 0 true) hfinish (Nat.le_add_left 1 _) _
  simpa using hopen

theorem looksLikeModule_of_returns (h : Returns t e) : looksLikeModule t = true := by
  obtain ⟨whole, item, arrow, params, rfl⟩ := h
  rfl

theorem isFaulty_of_returns (h : Returns t e) (hfaultless : e.anyLabel (· == .coverDefault) = false) :
    isFaulty kind t = false := by
  obtain ⟨whole, item, arrow, params, rfl⟩ := h
  have hnames : hasDuplicates ["default"] = false := rfl
  simp [isFaulty, Tree.anyLabel, Tree.anyLabels, hfaultless, exportedNames, hnames]

/-- The first statement of the module of an expression is what its tree starts with. -/
theorem exists_first_expressionModule {script : Program} (h : parse kind (expressionModule content) = some script) :
    ∃ waits first c, readers (4 * (expressionModule content).toList.length + 16) (.statement (kind.context waits) false)
        (startCursor kind (expressionModule content).toList) = some (first, c) ∧
      ((∀ chars, directive? chars first = none) → script.tree.kids.head? = some first) ∧
      c.token.kind ≠ .punct .comma := by
  obtain ⟨waits, size, c, hread, -⟩ := exists_readText h
  have hopen : (startCursor kind (expressionModule content).toList).token.kind ≠ .finish := by
    rw [(shows_expressionModule kind content).1.1.kind]
    exact TokenKind.noConfusion
  obtain ⟨first, c₁, hfirst, hhead, hmore⟩ :=
    exists_statement_of_readText (hashbangLine_expressionModule content) hopen hread
  refine ⟨waits, first, c₁, hfirst, hhead, fun hcomma => ?_⟩
  rcases hmore with hfinish | ⟨second, c₂, hsecond⟩
  · rw [hfinish] at hcomma
    contradiction
  · rw [run_statement_comma hcomma] at hsecond
    contradiction

/-- Code that a brace opens is read as the statements of a function. -/
theorem exists_block_expressionModule {script : Program} (hbrace : OpensBlock kind content)
    (h : parse kind (expressionModule content) = some script) : ∃ item arrow params body,
      script.tree.kids.head? = some (.node .exportDefault item [.node (.arrow {}) arrow [.node .params params [], body]]) ∧
        body.label = .functionBody := by
  obtain ⟨waits, first, c, hfirst, hhead, -⟩ := exists_first_expressionModule h
  obtain ⟨start, start', params, c₀, harrow, hline, hcode, hstatement⟩ := run_statement_expressionModule kind content
  have hbody : Yields (functionBody (codeReaders content) (insideArrow (kind.context waits) false))
      fun t => t.label = .functionBody := .bind fun _ => .bind fun _ => .bind fun _ => .bind fun _ => .finish fun _ => rfl
  have hblock : c₀.next.token.kind = .punct .leftBrace := hcode ▸ hbrace
  rw [hstatement, run_bind, run_arrowRest_block harrow hline hblock] at hfirst
  obtain ⟨⟨t, c₁⟩, hrest, hfirst⟩ := Option.bind_eq_some_iff.1 hfirst
  obtain ⟨body, c₂, hrun, hrest⟩ := run_bind_eq_some hrest
  obtain ⟨rfl, -⟩ := by simpa using hrest
  obtain ⟨u, c₃, -, hfirst⟩ := run_bind_eq_some hfirst
  obtain ⟨rfl, -⟩ := by simpa using hfirst
  exact ⟨_, _, params, body, hhead fun _ => rfl, hbody hrun⟩

/-- Code with commas outside of brackets is no body of a function. -/
theorem parse_expressionModule_sequence (h : IsExpression kind content e) (hlabel : e.label = .sequence)
    (hbrace : ¬ OpensBlock kind content) : parse kind (expressionModule content) = none := by
  obtain ⟨c, hread, -⟩ := h
  obtain ⟨start, start', params, c₀, harrow, hline, hcode, hstatement⟩ := run_statement_expressionModule kind content
  rcases assignment_of_expression hread with halone | ⟨e₁, c₁, halone, hcomma, -⟩
  · exact absurd hlabel (yieldsSingle_readers _ _ halone)
  · rw [Option.eq_none_iff_forall_ne_some]
    intro script hparse
    obtain ⟨waits, first, c₂, hfirst, -, hends⟩ := exists_first_expressionModule hparse
    rw [hstatement, run_bind, run_arrowRest_value harrow hline hcode hbrace halone, Option.bind_some] at hfirst
    obtain ⟨u, c₃, hstop, hfirst⟩ := run_bind_eq_some hfirst
    obtain rfl := run_endStatement_eq_some hstop hcomma
    obtain ⟨-, rfl⟩ := by simpa using hfirst
    exact hends hcomma

/-- The module of an expression gives its value just if the expression neither starts with a brace nor is a sequence: a
brace opens statements instead, and a sequence is refused. -/
theorem parse_expressionModule_iff (hmode : kind.mode ≠ .never) (h : IsExpression kind content e) :
    ((∃ script, parse kind (expressionModule content) = some script ∧ Returns script.tree e) ↔
      ¬ OpensBlock kind content ∧ e.label ≠ .sequence) ∧
    (OpensBlock kind content → ∀ script, parse kind (expressionModule content) = some script →
      ∃ item arrow params body, script.tree.kids.head? =
          some (.node .exportDefault item [.node (.arrow {}) arrow [.node .params params [], body]]) ∧
        body.label = .functionBody) ∧
    (¬ OpensBlock kind content → e.label = .sequence → parse kind (expressionModule content) = none) := by
  refine ⟨⟨?_, ?_⟩, fun hbrace script => exists_block_expressionModule hbrace, fun hbrace hlabel =>
    parse_expressionModule_sequence h hlabel hbrace⟩
  · rintro ⟨script, hparse, whole, item, arrow, params, htree⟩
    have hbrace : ¬ OpensBlock kind content := by
      intro hbrace
      obtain ⟨item', arrow', params', body, hhead, -⟩ := exists_block_expressionModule hbrace hparse
      rw [htree] at hhead
      simp at hhead
    refine ⟨hbrace, fun hlabel => ?_⟩
    rw [parse_expressionModule_sequence h hlabel hbrace] at hparse
    contradiction
  · rintro ⟨hbrace, hlabel⟩
    obtain ⟨c, hread, hfinish, hflawed, hfaultless⟩ := h
    rcases assignment_of_expression hread with halone | ⟨-, -, -, -, hsequence⟩
    · obtain ⟨t, ht, hreadText⟩ := readText_expressionModule halone hbrace hfinish
      have hparse := parse_of_readText hmode hreadText (looksLikeModule_of_returns ht)
      rw [checked, hflawed, isFaulty_of_returns ht hfaultless] at hparse
      exact ⟨_, by simpa using hparse, ht⟩
    · contradiction

theorem parse_expressionModule_iff_sum :
    let e : Tree := .node (.binary .add) ⟨21, 26⟩ [.node (.number "1") ⟨21, 22⟩ [], .node (.number "2") ⟨25, 26⟩ []]
    (sourceKind "fragment.tsx").mode ≠ .never ∧ IsExpression (sourceKind "fragment.tsx") "1 + 2" e ∧ ∃ script,
      parse (sourceKind "fragment.tsx") (expressionModule "1 + 2") = some script ∧ Returns script.tree e := by
  intro e
  have hmode : (sourceKind "fragment.tsx").mode ≠ .never := by decide
  have h : IsExpression (sourceKind "fragment.tsx") "1 + 2" e := by decide +kernel
  have hbrace : ¬ OpensBlock (sourceKind "fragment.tsx") "1 + 2" := by decide +kernel
  exact ⟨hmode, h, (parse_expressionModule_iff hmode h).1.2 ⟨hbrace, Label.noConfusion⟩⟩

/-- An object is read as a block with a label in it, and two numbers are not read at all. -/
theorem object_expressionModule :
    ((∃ e, IsExpression (sourceKind "fragment.tsx") "\x7b a: 1 \x7d" e) ∧ ∀ script e,
      parse (sourceKind "fragment.tsx") (expressionModule "\x7b a: 1 \x7d") = some script → ¬ Returns script.tree e) ∧
    (∃ e, IsExpression (sourceKind "fragment.tsx") "1, 2" e) ∧
      parse (sourceKind "fragment.tsx") (expressionModule "1, 2") = none := by
  have hobject : IsExpression (sourceKind "fragment.tsx") "\x7b a: 1 \x7d" (.node (.object false) ⟨21, 29⟩
      [.node (.property .value false false) ⟨23, 27⟩ [.node (.name "a") ⟨23, 24⟩ [], .node (.number "1") ⟨26, 27⟩ []]]) := by
    decide +kernel
  have hnumbers : IsExpression (sourceKind "fragment.tsx") "1, 2" (.node .sequence ⟨21, 25⟩
      [.node (.number "1") ⟨21, 22⟩ [], .node (.number "2") ⟨24, 25⟩ []]) := by
    decide +kernel
  have hblock : OpensBlock (sourceKind "fragment.tsx") "\x7b a: 1 \x7d" := by decide +kernel
  have hfree : ¬ OpensBlock (sourceKind "fragment.tsx") "1, 2" := by decide +kernel
  refine ⟨⟨⟨_, hobject⟩, ?_⟩, ⟨_, hnumbers⟩, parse_expressionModule_sequence hnumbers rfl hfree⟩
  rintro script e hparse ⟨whole, item, arrow, params, htree⟩
  obtain ⟨item', arrow', params', body, hhead, -⟩ := exists_block_expressionModule hblock hparse
  rw [htree] at hhead
  simp at hhead

end LiveNotes.Transpile
