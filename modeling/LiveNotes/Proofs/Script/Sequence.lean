import LiveNotes.Proofs.Script.Grammar.Functions

/-! Expressions with commas between them. Only commas make a sequence: what is read up to a comma is none, however deep
its parts nest. -/

namespace LiveNotes.Script

open Parse Grammar

/-- The tree is no sequence of expressions. -/
def IsSingle (t : Tree) : Prop := t.label ≠ .sequence

variable {rec : Readers} {ctx : Context} {t : Tree} {label : Label} {start : Nat} {kids : List Tree}

namespace Yields

theorem single (h : label ≠ .sequence) : Yields (Parse.finish label start kids) IsSingle := .finish fun _ => h

/-- What every step of a loop returns is no sequence. -/
theorem loopSingle {α : Type} {step : α → Parse (Option α)} (tree : α → Tree) {a : α} (ha : IsSingle (tree a))
    (hstep : ∀ a, IsSingle (tree a) → Yields (step a) fun next? => ∀ b ∈ next?, IsSingle (tree b)) :
    Yields (Parse.loop step a) fun b => IsSingle (tree b) := fun _ _ _ hrun =>
  loop_invariant (fun a _ => IsSingle (tree a)) (fun _ _ _ h _ => h)
    (fun a b _ _ h hnext => hstep a h hnext b rfl) ha hrun

end Yields

namespace Grammar

/-! ### Operands -/

theorem yieldsSingle_functionExpression (start : Nat) (isAsync : Bool) :
    Yields (functionExpression rec start isAsync) IsSingle := by
  refine .bind fun _ => .bind fun isGenerator => .bind fun k => ?_
  refine .ite (.bind fun name => .bind fun r => ?_) (.bind fun name => .bind fun r => ?_)
  all_goals
    obtain ⟨ps, body⟩ := r
    cases body with
    | none => exact .reject
    | some b => exact .single Label.noConfusion

theorem yieldsSingle_classTree (h : label ≠ .sequence) (start : Nat) (ds : Tree) :
    Yields (classTree rec ctx label start ds) IsSingle := fun _ _ _ hrun => by
  obtain ⟨_, _, _, rfl⟩ := exists_classTree hrun
  exact h

theorem yieldsSingle_newExpression : Yields (newExpression rec ctx) IsSingle := by
  refine .bind fun start => .bind fun _ => .bind fun isTarget => .ite (.bind fun _ => .single Label.noConfusion) ?_
  refine .bind fun callee => .bind fun optional => .ite (.bind fun _ => ?_) ?_
  all_goals
    split
    · exact .reject
    · exact .bind fun atArguments => .ite (.bind fun _ => .single Label.noConfusion) (.single Label.noConfusion)

theorem yieldsSingle_importCall (start : Nat) (phase : ImportPhase) :
    Yields (importCall rec ctx start phase) IsSingle := by
  refine .bind fun _ => .bind fun args => ?_
  exact .ite (.bind fun _ => .bind fun _ => .single Label.noConfusion) (.bind fun _ => .single Label.noConfusion)

theorem yieldsSingle_importExpression : Yields (importExpression rec ctx) IsSingle := by
  refine .bind fun start => .bind fun _ => .bind fun isDotted => .ite (.bind fun w => ?_) (yieldsSingle_importCall _ _)
  split
  · exact .single Label.noConfusion
  · exact yieldsSingle_importCall _ _
  · exact yieldsSingle_importCall _ _
  · exact .reject

theorem yieldsSingle_primaryWord (w : String) : Yields (primaryWord rec ctx w) IsSingle := by
  refine .bind fun start => ?_
  have hliteral {l : Label} (h : l ≠ .sequence) : Yields (do advance; finish l start []) IsSingle :=
    .bind fun _ => .single h
  dsimp only
  split
  · exact yieldsSingle_functionExpression start false
  · exact yieldsSingle_classTree Label.noConfusion start _
  · exact yieldsSingle_newExpression
  · exact yieldsSingle_importExpression
  · exact hliteral Label.noConfusion
  · exact hliteral Label.noConfusion
  · exact hliteral Label.noConfusion
  · exact hliteral Label.noConfusion
  · refine .seq (hliteral Label.noConfusion) fun t ht => .bind fun _ => .bind fun _ => .bind fun _ => ?_
    exact .ite (.pure ht) (.bind fun _ => .pure ht)
  · have hrest (next : Option Token) : Yields (do
        if next.any fun t => t.kind == .word "function" false && !t.newline then
          advance
          functionExpression rec start true
        else
          let name ← identifierText ctx
          finish (.read name) start []) IsSingle :=
      .ite (.bind fun _ => yieldsSingle_functionExpression start true) (.bind fun _ => .single Label.noConfusion)
    exact .ite (.bind hrest) (hrest none)

theorem yieldsSingle_regex : Yields regex IsSingle := by
  refine .bind fun start => .bind fun c => ?_
  split
  · exact .reject
  · exact .bind fun _ => .bind fun _ => .single Label.noConfusion

theorem yieldsSingle_primary : Yields (primary rec ctx) IsSingle := by
  refine .bind fun start => .bind fun k => ?_
  split
  · exact yieldsSingle_primaryWord _
  iterate 4 exact .bind fun _ => .single Label.noConfusion
  iterate 3 exact .bind fun _ => .bind fun _ => .bind fun _ => .bind fun _ => .single Label.noConfusion
  · exact .bind fun _ => .bind fun _ => .single Label.noConfusion
  · exact yieldsSingle_regex
  · exact yieldsSingle_regex
  · exact .bind fun ds => yieldsSingle_classTree Label.noConfusion start ds
  · exact .reject

theorem yieldsSingle_namedAccess (start : Nat) (base : Tree) (optional : Bool) :
    Yields (namedAccess start base optional) IsSingle := by
  refine .bind fun _ => .bind fun k => ?_
  split
  · exact .bind fun _ => .single Label.noConfusion
  · exact .bind fun _ => .single Label.noConfusion
  · exact .reject

theorem yieldsSingle_callOf (start : Nat) (callee : Tree) (optional : Bool) :
    Yields (callOf rec ctx start callee optional) IsSingle := .bind fun _ => .single Label.noConfusion

theorem yieldsSingle_optionalAccess (start : Nat) (base : Tree) :
    Yields (optionalAccess rec ctx start base) IsSingle := by
  refine .bind fun k => ?_
  have hcall : Yields (do
      unless ← typesAllowed do reject
      typeArguments rec
      callOf rec ctx start base true) IsSingle := by
    refine .bind fun types => .ite ?_ (.bind fun _ => ?_)
    all_goals exact .bind fun _ => yieldsSingle_callOf start base true
  split
  · exact yieldsSingle_callOf start base true
  · exact .bind fun _ => .single Label.noConfusion
  · exact hcall
  · exact hcall
  · exact yieldsSingle_namedAccess start base true

/-- One access more makes no sequence. -/
theorem yields_access (calls : Bool) (start : Nat) (a : Accessed) :
    Yields (access rec ctx calls start a) fun next? => ∀ b ∈ next?, IsSingle b.tree := by
  have hnone : Yields (pure none) fun (next? : Option Accessed) => ∀ b ∈ next?, IsSingle b.tree := .pure nofun
  have hstep {p : Parse Tree} (h : Yields p IsSingle) (chained : Bool) :
      Yields (do return some (⟨← p, chained⟩ : Accessed)) fun next? => ∀ b ∈ next?, IsSingle b.tree :=
    .seq h fun t ht => .pure fun b hb => Option.some.inj hb ▸ ht
  refine .bind fun k => ?_
  split
  · exact .bind fun _ => hstep (yieldsSingle_namedAccess _ _ _) _
  · refine .ite .reject (.ite hnone (.bind fun _ => ?_))
    exact hstep (yieldsSingle_optionalAccess _ _) _
  · exact .ite hnone (.bind fun key => hstep (.single Label.noConfusion) _)
  · exact .bind fun _ => .bind fun _ => hstep (.single Label.noConfusion) _
  · exact .ite (hstep (yieldsSingle_callOf _ _ _) _) hnone
  · refine .bind fun types => .bind fun newLine => .ite (.bind fun _ => ?_) hnone
    exact hstep (.single Label.noConfusion) _
  iterate 2
    · refine .bind fun types => .ite (.bind fun found => ?_) hnone
      cases found with
      | none => exact hnone
      | some _ => exact hstep (.single Label.noConfusion) _
  · exact hnone

theorem yieldsSingle_accesses (calls : Bool) : Yields (accesses rec ctx calls) IsSingle := by
  refine .bind fun start => .seq yieldsSingle_primary fun base hbase => ?_
  refine .seq (.loopSingle Accessed.tree hbase fun a _ => yields_access calls start a) fun a ha => .ite (.pure ha) ?_
  split
  · exact .bind fun _ => .pure Label.noConfusion
  · exact .single Label.noConfusion

theorem yieldsSingle_element : Yields (element rec ctx) IsSingle := by
  have hdone (start : Nat) (kids : List Tree) : Yields (do
      unless ← atPunct .greater do reject
      return Tree.node .element ⟨start, (← get).after.pos⟩ kids : Parse Tree) IsSingle :=
    .bind fun _ => .ite (.bind fun _ => .pure Label.noConfusion) (.bind fun _ => .bind fun _ => .pure Label.noConfusion)
  have hchildren (start : Nat) (name attrs : Tree) : Yields (do
      let cs ← children rec ctx.inside (tagText name) (← get).after
      unless ← atPunct .greater do reject
      return Tree.node .element ⟨start, (← get).after.pos⟩ (name :: attrs :: cs) : Parse Tree) IsSingle :=
    .bind fun _ => .bind fun _ => hdone start _
  have hattributes (start : Nat) (name : Tree) : Yields (do
      let attrsStart ← here
      let attrs ← many (markupAttribute rec ctx.inside)
      let attrs ← finish .attributes attrsStart attrs
      if ← eatPunct .slash then
        unless ← atPunct .greater do reject
        return Tree.node .element ⟨start, (← get).after.pos⟩ [name, attrs]
      else
        unless ← atPunct .greater do reject
        let cs ← children rec ctx.inside (tagText name) (← get).after
        unless ← atPunct .greater do reject
        return Tree.node .element ⟨start, (← get).after.pos⟩ (name :: attrs :: cs) : Parse Tree) IsSingle := by
    refine .bind fun _ => .bind fun _ => .bind fun attrs => .bind fun closed => .ite (hdone start _) ?_
    exact .bind fun _ => .ite (hchildren start name attrs) (.bind fun _ => hchildren start name attrs)
  refine .bind fun start => .bind fun _ => .bind fun isFragment => .ite ?_ (.bind fun name => .bind fun types => ?_)
  · exact .bind fun none_ => .bind fun _ => .bind fun cs => hdone start _
  · exact .ite (.bind fun _ => hattributes start name) (hattributes start name)

/-! ### Operators -/

theorem isSingle_markPure (h : IsSingle t) : IsSingle (markPure t) := by
  unfold markPure
  split
  all_goals first
    | exact h
    | exact Label.noConfusion

theorem isSingle_markPureFunction (h : IsSingle t) : IsSingle (markPureFunction t) := by
  unfold markPureFunction
  split
  all_goals first
    | exact h
    | exact Label.noConfusion

theorem yieldsSingle_withNote {p : Parse Tree} (h : Yields p IsSingle) : Yields (withNote p) IsSingle := by
  refine .bind fun token => .seq h fun e he => .pure ?_
  split
  · exact isSingle_markPure he
  · exact he

theorem yieldsSingle_postfix : Yields (postfix_ rec ctx) IsSingle := by
  refine .bind fun start => .seq (yieldsSingle_accesses true) fun t ht => .bind fun decrement => .bind fun increment => ?_
  refine .bind fun newLine => .ite (.bind fun _ => .bind fun _ => .single Label.noConfusion) (.pure ht)

theorem yieldsSingle_angled (helement : ∀ ctx, Yields (rec (.element ctx)) IsSingle) :
    Yields (angled rec ctx) IsSingle := by
  refine .bind fun start => .bind fun markup => .ite ?_ (.bind fun types => .ite ?_ .reject)
  · exact .seq (helement ctx) fun e he => .bind fun _ => .pure he
  · exact .bind fun _ => .bind fun _ => .bind fun _ => .bind fun _ => .single Label.noConfusion

theorem yieldsSingle_unary (helement : ∀ ctx, Yields (rec (.element ctx)) IsSingle) :
    Yields (unary rec ctx) IsSingle := by
  refine .bind fun start => .bind fun k => ?_
  split
  · exact .bind fun _ => .bind fun _ => .single Label.noConfusion
  · split
    · exact .bind fun _ => .bind fun _ => .bind fun _ => .single Label.noConfusion
    · exact .bind fun _ => .bind fun _ => .bind fun _ => .single Label.noConfusion
    · exact yieldsSingle_angled helement
    · exact yieldsSingle_angled helement
    · refine .bind fun isAwait => .ite ?_ yieldsSingle_postfix
      exact .bind fun _ => .bind fun _ => .bind fun _ => .single Label.noConfusion

theorem yieldsSingle_privateSearch (least : Nat) (w : String) : Yields (privateSearch rec ctx least w) IsSingle := by
  have hrest (start : Nat) : Yields (do
      expectWord "in"
      let e ← rec (.binary ctx (comparePrecedence + 1))
      if least > comparePrecedence then reject
      finish (.privateIn w) start [e]) IsSingle :=
    .bind fun _ => .bind fun _ => .ite (.bind fun _ => .single Label.noConfusion) (.single Label.noConfusion)
  exact .bind fun start => .bind fun _ => .ite (hrest start) (.bind fun _ => hrest start)

theorem yieldsSingle_operand (helement : ∀ ctx, Yields (rec (.element ctx)) IsSingle) (least : Nat) :
    Yields (operand rec ctx least) IsSingle := by
  refine .bind fun k => ?_
  split
  · exact yieldsSingle_privateSearch least _
  · exact yieldsSingle_withNote (yieldsSingle_unary helement)

theorem infixLabel_ne_sequence (op : InfixOp) : infixLabel op ≠ .sequence := by
  cases op <;> exact Label.noConfusion

theorem yields_binaryStep (least start : Nat) (left : Tree) :
    Yields (binaryStep rec ctx least start left) fun next? => ∀ t ∈ next?, IsSingle t := by
  have hnone : Yields (pure none) fun (next? : Option Tree) => ∀ t ∈ next?, IsSingle t := .pure nofun
  have hsome {label : Label} (h : label ≠ .sequence) (kids : List Tree) :
      Yields (do return some (← finish label start kids)) fun next? => ∀ t ∈ next?, IsSingle t :=
    .seq (.single h) fun t ht => .pure fun u hu => Option.some.inj hu ▸ ht
  refine .bind fun claim => .ite (.bind fun _ => .bind fun _ => hsome Label.noConfusion _) (.bind fun op? => ?_)
  obtain _ | ⟨op, place⟩ := op?
  · exact hnone
  · have hright := infixLabel_ne_sequence op
    refine .ite hnone (.bind fun c => .ite ?_ ?_)
    all_goals exact .bind fun _ => .bind fun _ => .bind fun _ => hsome hright _

theorem yieldsSingle_binary (helement : ∀ ctx, Yields (rec (.element ctx)) IsSingle) (least : Nat) :
    Yields (binary rec ctx least) IsSingle :=
  .bind fun start => .seq (yieldsSingle_operand helement least) fun _ hfirst =>
    .loopSingle id hfirst fun t _ => yields_binaryStep least start t

/-! ### Arrow functions and assignments -/

theorem yieldsSingle_arrowRest (start : Nat) (isAsync : Bool) (ps : Tree) :
    Yields (arrowRest rec ctx start isAsync ps) IsSingle := by
  have hrest : Yields (do
      expectPunct .arrow
      let inner := insideArrow ctx isAsync
      if ← atPunct .leftBrace then
        let body ← functionBody rec inner
        finish (.arrow { isAsync }) start [ps, body]
      else
        let body ← rec (.assignment { inner with returns := false, resultTypes := ctx.resultTypes })
        finish (.arrow { isAsync, concise := true }) start [ps, body]) IsSingle := by
    refine .bind fun _ => .bind fun isBlock => .ite ?_ ?_
    · exact .bind fun _ => .single Label.noConfusion
    · exact .bind fun _ => .single Label.noConfusion
  exact .bind fun newLine => .ite (.bind fun _ => hrest) hrest

theorem yieldsSingle_parenArrow : Yields (parenArrow rec ctx) IsSingle := by
  have hrest (start : Nat) (isAsync : Bool) : Yields (do
      let ps ← parameters rec { awaits := ctx.awaits || isAsync, yields := ctx.yields } .arrow
      let annotated ← resultAnnotation rec
      let t ← arrowRest rec ctx start isAsync ps
      if annotated && !ctx.resultTypes && !(← atPunct .colon) then reject
      pure t) IsSingle := by
    refine .bind fun ps => .bind fun annotated => .seq (yieldsSingle_arrowRest start isAsync ps) fun t ht => ?_
    exact .bind fun colon => .ite (.bind fun _ => .pure ht) (.pure ht)
  refine .bind fun start => .bind fun isAsync => .bind fun types => .ite ?_ ?_
  · exact .bind fun _ => hrest start isAsync
  · exact hrest start isAsync

theorem yieldsSingle_nameArrow (start : Nat) (isAsync : Bool) : Yields (nameArrow rec ctx start isAsync) IsSingle :=
  .bind fun _ => .bind fun _ => yieldsSingle_arrowRest _ _ _

theorem yields_nameArrow? : Yields (nameArrow? rec ctx) fun t? => ∀ t ∈ t?, IsSingle t := by
  have hnone : Yields (pure none) fun (t? : Option Tree) => ∀ t ∈ t?, IsSingle t := .pure nofun
  have hname (start : Nat) (isAsync : Bool) :
      Yields (do return some (← nameArrow rec ctx start isAsync)) fun t? => ∀ t ∈ t?, IsSingle t :=
    .seq (yieldsSingle_nameArrow start isAsync) fun t ht => .pure fun u hu => Option.some.inj hu ▸ ht
  refine .bind fun start => .bind fun atName => .ite hnone (.bind fun next => .ite (hname start false) ?_)
  refine .bind fun isAsync => .ite (.bind fun isArrow => .ite (.bind fun _ => hname start true) hnone) hnone

theorem yields_arrow? : Yields (arrow? rec ctx) fun t? => ∀ t ∈ t?, IsSingle t := by
  refine .bind fun likelihood => ?_
  cases likelihood with
  | yes => exact .seq yieldsSingle_parenArrow fun t ht => .pure fun u hu => Option.some.inj hu ▸ ht
  | no => exact yields_nameArrow?
  | maybe =>
    have hattempt : Yields (attempt (parenArrow rec ctx)) fun t? => ∀ t ∈ t?, IsSingle t := by
      intro c t? c' hrun t ht
      obtain rfl := ht
      cases hparen : parenArrow rec ctx c with
      | none => simp [attempt, hparen] at hrun
      | some r =>
        obtain ⟨u, c₁⟩ := r
        obtain ⟨rfl, rfl⟩ := by simpa [attempt, hparen] using hrun
        exact yieldsSingle_parenArrow hparen
    refine .seq hattempt fun t? ht? => ?_
    cases t? with
    | some t => exact .pure ht?
    | none => exact yields_nameArrow?

theorem yieldsSingle_yieldExpression : Yields (yieldExpression rec ctx) IsSingle := by
  have hrest (start : Nat) (e : Tree) : Yields (finish (.yield false) start [e]) IsSingle := .single Label.noConfusion
  refine .bind fun start => .bind fun _ => .bind fun star => .bind fun newLine => .ite ?_ (.bind fun token => ?_)
  · exact .bind fun _ => .bind fun _ => .single Label.noConfusion
  · exact .ite (.bind (hrest start)) (.bind (hrest start))

theorem yieldsSingle_assignmentRest (start : Nat) (left : Tree) (op : AssignOp) (place : Place) :
    Yields (assignmentRest rec ctx start left op place) IsSingle := by
  unfold assignmentRest
  split
  · exact .reject
  · refine .bind fun c => .ite ?_ ?_
    all_goals exact .bind fun _ => .bind fun _ => .single Label.noConfusion

theorem yieldsSingle_conditionalRest {test : Tree} (h : IsSingle test) (start : Nat) :
    Yields (conditionalRest rec ctx start test) IsSingle :=
  .bind fun _ => .ite (.bind fun _ => .bind fun _ => .bind fun _ => .single Label.noConfusion) (.pure h)

theorem yieldsSingle_assignment (helement : ∀ ctx, Yields (rec (.element ctx)) IsSingle) :
    Yields (assignment rec ctx) IsSingle := by
  have hnoted {t : Tree} (ht : IsSingle t) (isPure : Bool) : IsSingle (if isPure then markPureFunction t else t) := by
    cases isPure with
    | false => exact ht
    | true => exact isSingle_markPureFunction ht
  refine .bind fun token => .bind fun isYield => .ite yieldsSingle_yieldExpression ?_
  refine .seq yields_arrow? fun t? ht? => ?_
  cases t? with
  | some t => exact .pure (hnoted (ht? t rfl) _)
  | none =>
    refine .bind fun start => .seq (yieldsSingle_binary helement 0) fun left hleft => .bind fun op? => ?_
    obtain _ | ⟨op, place⟩ := op?
    · exact .seq (yieldsSingle_conditionalRest hleft start) fun t ht => .pure (hnoted ht _)
    · exact yieldsSingle_assignmentRest start left op place

/-- Only commas make a sequence. -/
theorem yieldsSingle_readers (n : Nat) (ctx : Context) : Yields (readers n (.assignment ctx)) IsSingle := by
  cases n with
  | zero => exact .reject
  | succ n =>
    refine yieldsSingle_assignment fun ctx => ?_
    cases n with
    | zero => exact .reject
    | succ n => exact yieldsSingle_element

/-! ### Commas -/

variable {c c' : Cursor} {e : Tree}

/-- An expression is read up to the first comma, or to its end. -/
theorem assignment_of_expression (h : expression rec ctx c = some (e, c')) :
    rec (.assignment ctx) c = some (e, c') ∨
      ∃ first c₁, rec (.assignment ctx) c = some (first, c₁) ∧ c₁.token.kind = .punct .comma ∧ e.label = .sequence := by
  obtain ⟨start, _, hhere, h⟩ := run_bind_eq_some h
  obtain ⟨rfl, rfl⟩ := by simpa using hhere
  obtain ⟨first, c₁, hfirst, h⟩ := run_bind_eq_some h
  obtain ⟨atComma, _, hcomma, h⟩ := run_bind_eq_some h
  obtain ⟨rfl, rfl⟩ := by simpa using hcomma
  split at h
  · next hcomma =>
    obtain ⟨others, c₂, -, h⟩ := run_bind_eq_some h
    obtain ⟨rfl, -⟩ := by simpa using h
    exact .inr ⟨first, _, hfirst, by simpa using hcomma, rfl⟩
  · obtain ⟨rfl, rfl⟩ := by simpa using h
    exact .inl hfirst

theorem run_assignment_comma (h : c.token.kind = .punct .comma) : assignment rec ctx c = none := by
  have hunary : unary rec ctx c = none := by
    simp [unary, unaryOp?, h, atAwait, postfix_, accesses, primary, reject]
  have hbinary : binary rec ctx 0 c = none := by
    simp [binary, operand, h, withNote, hunary]
  have harrow : arrow? rec ctx c = some (none, c) := by
    simp [arrow?, arrowLikelihood, h, nameArrow?, atIdentifier, isIdentifier]
  simp [assignment, h, harrow, hbinary]

/-- No statement starts with a comma. -/
theorem run_statement_comma (h : c.token.kind = .punct .comma) (n : Nat) (ctx : Context) :
    readers n (.statement ctx false) c = none := by
  have hassignment (n : Nat) : readers n (.assignment ctx) c = none := by
    cases n with
    | zero => rfl
    | succ n => exact run_assignment_comma h
  cases n with
  | zero => rfl
  | succ n =>
    show statement (readers n) ctx false c = none
    simp [statement, plainStatement, h, expressionStatement, expression, hassignment]

/-- A statement ends in front of a comma only where a line ends. -/
theorem run_endStatement_eq_some {u : Unit} (h : endStatement c = some (u, c')) (hkind : c.token.kind = .punct .comma) :
    c' = c := by
  by_cases hline : c.token.newline = true
  · obtain rfl := by simpa [endStatement, canEndStatement, hkind, hline] using h
    rfl
  · simp [endStatement, canEndStatement, hkind, hline, reject] at h

end Grammar

end LiveNotes.Script
