import LiveNotes.Proofs.Script.Grammar.Operators
import LiveNotes.Script.Grammar.Control

/-! Blocks, branches, loops, jumps and cases as trees of leaves. -/

namespace LiveNotes.Script

open Parse Grammar

variable {text : List Char} {lo : Nat} {rec : Readers}

theorem reads_block (hrec : ReadsGoals text rec) (ctx : Context) : Reads text (block rec ctx) := by
  intro lo
  refine .quiet quiet_here fun start => .quiet (quiet_expectPunct _) fun _ => ?_
  refine .bind (.statementsInBraces hrec ctx) fun ss => .quiet (quiet_expectPunct _) fun _ => ?_
  exact .finish rfl fun _ => trivial

theorem reads_ifStatement (hrec : ReadsGoals text rec) (ctx : Context) : Reads text (ifStatement rec ctx) := by
  intro lo
  refine .quiet quiet_here fun start => .quiet quiet_advance fun _ => .read (reads_inParens hrec ctx) fun test => ?_
  refine .read (hrec _ rfl) fun yes => .quiet (quiet_eatWord _) fun _ => .ite ?_ (.finish rfl fun _ => trivial)
  exact .read (hrec _ rfl) fun no => .finish rfl fun _ => trivial

/-! ### Loops -/

theorem reads_loopInit (hrec : ReadsGoals text rec) (ctx : Context) (awaited : Bool) :
    Reads text (loopInit rec ctx awaited) := by
  intro lo
  refine .quiet quiet_here fun start => .quiet (quiet_atPunct _) fun _ => .ite (reads_hole lo) ?_
  refine .quiet quiet_loopVariables? fun kind? => ?_
  cases kind? with
  | some kind => exact .quiet (quiet_skipKeyword kind) fun _ => reads_variableList hrec _ start kind lo
  | none =>
    have hrest : ∀ startsLet asyncOf : Bool, Gathers text lo [] (do
        let e ← expression rec { ctx with inOperator := false }
        if ← atWord "of" then flawIf (startsLet || (asyncOf && !awaited))
        pure e) fun t => [t] := fun _ _ =>
      .read (reads_expression hrec _) fun e => .quiet (quiet_atWord _) fun _ =>
        .ite (.quiet (quiet_flawIf _) fun _ => .pure rfl) (.pure rfl)
    refine .quiet (quiet_atWord _) fun startsLet => .quiet (quiet_atWord _) fun _ => .ite ?_ (hrest startsLet _)
    exact .quiet quiet_nextToken fun _ => hrest startsLet _

theorem gathers_loopTarget (init : Tree) : Gathers text lo [init] (loopTarget init) fun t => [t] := by
  unfold loopTarget
  split
  · exact .pure rfl
  · split
    next t ht => exact .pureWith fun stop hts => (target?_keeps ht).spaced hts
    next => exact .reject

theorem gathers_countingRest (hrec : ReadsGoals text rec) (ctx : Context) (start : Nat) (init : Tree) :
    Gathers text lo [init] (countingRest rec ctx start init) fun t => [t] := by
  have hbody : ∀ test update, Gathers text lo [init, test, update] (do
      expectPunct .rightParen
      let body ← branch rec ctx
      finish .forLoop start [init, test, update, body]) fun t => [t] := fun _ _ =>
    .quiet (quiet_expectPunct _) fun _ => .read (hrec _ rfl) fun body => .finish rfl fun _ => trivial
  have hupdate : ∀ test, Gathers text lo [init, test] (do
      expectPunct .semicolon
      let update ← if ← atPunct .rightParen then holeHere else expression rec { ctx with inOperator := true }
      expectPunct .rightParen
      let body ← branch rec ctx
      finish .forLoop start [init, test, update, body]) fun t => [t] := fun test =>
    .quiet (quiet_expectPunct _) fun _ => .quiet (quiet_atPunct _) fun _ =>
      .ite (.read reads_hole (hbody test)) (.read (reads_expression hrec _) (hbody test))
  have htest : Gathers text lo [init] (do
      expectPunct .semicolon
      let test ← if ← atPunct .semicolon then holeHere else expression rec { ctx with inOperator := true }
      expectPunct .semicolon
      let update ← if ← atPunct .rightParen then holeHere else expression rec { ctx with inOperator := true }
      expectPunct .rightParen
      let body ← branch rec ctx
      finish .forLoop start [init, test, update, body]) fun t => [t] :=
    .quiet (quiet_expectPunct _) fun _ => .quiet (quiet_atPunct _) fun _ =>
      .ite (.read reads_hole hupdate) (.read (reads_expression hrec _) hupdate)
  unfold countingRest
  split
  · exact .quiet (quiet_flawIf _) fun _ => htest
  · exact htest

theorem gathers_elementsRest (hrec : ReadsGoals text rec) (ctx : Context) (start : Nat) (awaited : Bool) (init : Tree) :
    Gathers text lo [init] (elementsRest rec ctx start awaited init) fun t => [t] := by
  refine .seq (gathers_loopTarget init) fun left => .read (hrec _ rfl) fun right => ?_
  refine .quiet (quiet_expectPunct _) fun _ => .read (hrec _ rfl) fun body => .finish rfl fun _ => trivial

theorem gathers_keysRest (hrec : ReadsGoals text rec) (ctx : Context) (start : Nat) (init : Tree) :
    Gathers text lo [init] (keysRest rec ctx start init) fun t => [t] := by
  have hrest : Gathers text lo [init] (do
      let left ← loopTarget init
      let right ← expression rec ctx
      expectPunct .rightParen
      let body ← branch rec ctx
      finish .forIn start [left, right, body]) fun t => [t] := by
    refine .seq (gathers_loopTarget init) fun left => .read (reads_expression hrec _) fun right => ?_
    exact .quiet (quiet_expectPunct _) fun _ => .read (hrec _ rfl) fun body => .finish rfl fun _ => trivial
  unfold keysRest
  split
  · exact .quiet (quiet_flawIf _) fun _ => hrest
  · exact hrest

theorem reads_forStatement (hrec : ReadsGoals text rec) (ctx : Context) : Reads text (forStatement rec ctx) := by
  intro lo
  refine .quiet quiet_here fun start => .quiet quiet_advance fun _ => .quiet (quiet_eatWord _) fun awaited => ?_
  have hrest : Gathers text lo [] (do
      expectPunct .leftParen
      let init ← loopInit rec ctx awaited
      if !init.isHole && (← eatWord "of") then elementsRest rec ctx start awaited init
      else if awaited then reject
      else if !init.isHole && (← eatWord "in") then keysRest rec ctx start init
      else countingRest rec ctx start init) fun t => [t] := by
    refine .quiet (quiet_expectPunct _) fun _ => .read (reads_loopInit hrec ctx awaited) fun init => ?_
    refine .quiet (quiet_eatWord _) fun _ => .ite (gathers_elementsRest hrec ctx start awaited init) (.ite .reject ?_)
    exact .quiet (quiet_eatWord _) fun _ => .ite (gathers_keysRest hrec ctx start init)
      (gathers_countingRest hrec ctx start init)
  exact .ite (.quiet (quiet_checkAwait ctx) fun _ => hrest) hrest

theorem reads_whileStatement (hrec : ReadsGoals text rec) (ctx : Context) :
    Reads text (whileStatement rec ctx) := by
  intro lo
  refine .quiet quiet_here fun start => .quiet quiet_advance fun _ => .read (reads_inParens hrec ctx) fun test => ?_
  exact .read (hrec _ rfl) fun body => .finish rfl fun _ => trivial

theorem reads_doStatement (hrec : ReadsGoals text rec) (ctx : Context) : Reads text (doStatement rec ctx) := by
  intro lo
  refine .quiet quiet_here fun start => .quiet quiet_advance fun _ => .read (hrec _ rfl) fun body => ?_
  refine .quiet (quiet_expectWord _) fun _ => .read (reads_inParens hrec ctx) fun test => ?_
  exact .quiet (quiet_eatPunct _) fun _ => .finish rfl fun _ => trivial

theorem reads_withStatement (hrec : ReadsGoals text rec) (ctx : Context) : Reads text (withStatement rec ctx) := by
  intro lo
  refine .quiet quiet_here fun start => .quiet quiet_advance fun _ => .read (reads_inParens hrec ctx) fun object => ?_
  exact .read (hrec _ rfl) fun body => .finish rfl fun _ => trivial

/-! ### Jumps -/

@[simp] theorem quiet_jumpLabel : Quiet text jumpLabel := by
  refine quiet_token.bind fun t => ?_
  split
  · exact .ite (.pure _) (quiet_advance.bind fun _ => .pure _)
  · exact .pure _

theorem reads_jumpStatement {label : Option String → Label} (hleaf : ∀ name, (label name).isLeaf = true)
    (hlabel : ∀ name, (label name).identifier? = none) : Reads text (jumpStatement label) := by
  refine .starts fun start hstart => .advance (.quiet quiet_jumpLabel fun name => .quiet quiet_endStatement fun _ => ?_)
  exact .finish hstart (hleaf name) fun _ => regular_leaf (hleaf name) (hlabel name)

theorem reads_returnStatement (hrec : ReadsGoals text rec) (ctx : Context) :
    Reads text (returnStatement rec ctx) := by
  intro lo
  refine .quiet quiet_here fun start => .quiet (quiet_flawIf _) fun _ => .quiet quiet_advance fun _ => ?_
  have hrest : ∀ value, Gathers text lo [value] (do
      endStatement
      finish .returnStatement start [value]) fun t => [t] := fun _ =>
    .quiet quiet_endStatement fun _ => .finish rfl fun _ => trivial
  refine .quiet quiet_canEndStatement fun _ => .ite (.read reads_hole hrest) ?_
  exact .read (reads_expression hrec _) hrest

theorem reads_throwStatement (hrec : ReadsGoals text rec) (ctx : Context) :
    Reads text (throwStatement rec ctx) := by
  intro lo
  refine .quiet quiet_here fun start => .quiet quiet_advance fun _ => .quiet quiet_onNewLine fun _ => .ite .rejectBind ?_
  refine .read (reads_expression hrec ctx) fun e => ?_
  exact .quiet quiet_endStatement fun _ => .finish rfl fun _ => trivial

theorem reads_debuggerStatement : Reads text debuggerStatement := by
  intro lo
  refine .quiet quiet_here fun start => .quiet quiet_advance fun _ => ?_
  exact .quiet quiet_endStatement fun _ => .finish rfl fun _ => trivial

/-! ### Cases and errors -/

theorem Gives.switchCase (hrec : ReadsGoals text rec) (ctx : Context) :
    Gives text (switchCase rec ctx) Option.toList := by
  intro lo
  refine .quiet quiet_here fun start => .quiet (quiet_atPunct _) fun _ => .ite (.pure rfl) ?_
  have hrest : ∀ test, Gathers text lo [test] (do
      expectPunct .colon
      let ss ← Parse.many do
        if (← atPunct .rightBrace) || (← atWord "case") || (← atWord "default") then pure none
        else return some (← rec (.statement ctx false))
      return some (← finish .switchCase start (test :: ss)) : Parse (Option Tree)) Option.toList := by
    intro test
    refine .quiet (quiet_expectPunct _) fun _ => .bind (.many fun lo => ?_) fun ss => ?_
    · refine .quiet (quiet_atPunct _) fun _ => .quiet (quiet_atWord _) fun _ => .quiet (quiet_atWord _) fun _ => ?_
      exact .ite (.pure rfl) (.read (hrec _ rfl) fun t => .pure rfl)
    · exact .seq (.finish rfl fun _ => trivial) fun t => .pure rfl
  refine .quiet (quiet_eatWord _) fun _ => .ite (.read reads_hole hrest) ?_
  exact .quiet (quiet_expectWord _) fun _ => .read (reads_expression hrec ctx) hrest

theorem reads_switchStatement (hrec : ReadsGoals text rec) (ctx : Context) :
    Reads text (switchStatement rec ctx) := by
  intro lo
  refine .quiet quiet_here fun start => .quiet quiet_advance fun _ => .read (reads_inParens hrec ctx) fun value => ?_
  refine .quiet (quiet_expectPunct _) fun _ => .bind (.many (.switchCase hrec ctx)) fun cases => ?_
  exact .quiet (quiet_expectPunct _) fun _ => .finish rfl fun _ => List.cons_ne_nil _ _

theorem reads_catchClause (hrec : ReadsGoals text rec) (ctx : Context) : Reads text (catchClause rec ctx) := by
  intro lo
  refine .quiet quiet_here fun start => .quiet (quiet_expectWord _) fun _ => ?_
  have hrest : ∀ param, Gathers text lo [param] (do
      let body ← block rec ctx
      finish .catchClause start [param, body]) fun t => [t] := fun _ =>
    .read (reads_block hrec ctx) fun body => .finish rfl fun _ => trivial
  refine .quiet (quiet_eatPunct _) fun _ => .ite ?_ (.read reads_hole hrest)
  refine .read (hrec _ rfl) fun p => .quiet quiet_typeAnnotation fun _ => .quiet (quiet_expectPunct _) fun _ => ?_
  exact .seq (.pure rfl) hrest

theorem reads_tryStatement (hrec : ReadsGoals text rec) (ctx : Context) : Reads text (tryStatement rec ctx) := by
  intro lo
  refine .quiet quiet_here fun start => .quiet quiet_advance fun _ => .read (reads_block hrec ctx) fun body => ?_
  have hrest : ∀ handler final, Gathers text lo [body, handler, final] (do
      if handler.isHole && final.isHole then reject
      finish .tryStatement start [body, handler, final]) fun t => [t] := fun _ _ =>
    .ite .rejectBind (.finish rfl fun _ => trivial)
  have hfinal : ∀ handler, Gathers text lo [body, handler] (do
      let final ← if ← eatWord "finally" then block rec ctx else holeHere
      if handler.isHole && final.isHole then reject
      finish .tryStatement start [body, handler, final]) fun t => [t] := fun handler =>
    .quiet (quiet_eatWord _) fun _ =>
      .ite (.read (reads_block hrec ctx) (hrest handler)) (.read reads_hole (hrest handler))
  exact .quiet (quiet_atWord _) fun _ =>
    .ite (.read (reads_catchClause hrec ctx) hfinal) (.read reads_hole hfinal)

end LiveNotes.Script
