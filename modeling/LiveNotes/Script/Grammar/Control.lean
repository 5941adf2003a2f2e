import LiveNotes.Script.Grammar.Variable

/-! Blocks, branches, loops and jumps. -/

namespace LiveNotes.Script.Grammar

open Parse

def block (rec : Readers) (c : Context) : Parse Tree := do
  let start ← here
  expectPunct .leftBrace
  let ss ← statementsInBraces rec c
  expectPunct .rightBrace
  finish .block start ss

/-- A statement that stands alone in a branch or loop. -/
def branch (rec : Readers) (c : Context) : Parse Tree := rec (.statement c true)

def ifStatement (rec : Readers) (c : Context) : Parse Tree := do
  let start ← here
  advance
  let test ← inParens rec c
  let yes ← branch rec c
  if ← eatWord "else" then
    let no ← branch rec c
    finish .ifElse start [test, yes, no]
  else finish .ifElse start [test, yes]

/-! ### Loops -/

/-- What stands between `for (` and the word or mark that tells the kind of the loop: nothing,
variables, or an expression. -/
def loopInit (rec : Readers) (c₀ : Context) (awaited : Bool) : Parse Tree := do
  let c := { c₀ with inOperator := false }
  let start ← here
  if ← atPunct .semicolon then holeHere
  else match ← loopVariables? with
    | some kind =>
      skipKeyword kind
      variableList rec c start kind
    | none =>
      let startsLet ← atWord "let"
      let asyncOf ← if ← atWord "async" then pure ((← nextToken).kind == .word "of" false)
        else pure false
      let e ← expression rec c
      if ← atWord "of" then flawIf (startsLet || (asyncOf && !awaited))
      pure e

/-- What a loop over elements or keys assigns to. -/
def loopTarget (init : Tree) : Parse Tree :=
  match init.label with
  | .variableList _ => pure init
  | _ => match target? init with
    | some t => pure t
    | none => reject

/-- The rest of a counting loop, from the semicolon behind its initialisation. -/
def countingRest (rec : Readers) (c : Context) (start : Nat) (init : Tree) : Parse Tree := do
  match init.label with
  | .variableList kind => flawIf (!c.ambient && init.kids.any (lacksValue kind true))
  | _ => pure ()
  let inner := { c with inOperator := true }
  expectPunct .semicolon
  let test ← if ← atPunct .semicolon then holeHere else expression rec inner
  expectPunct .semicolon
  let update ← if ← atPunct .rightParen then holeHere else expression rec inner
  expectPunct .rightParen
  let body ← branch rec c
  finish .forLoop start [init, test, update, body]

/-- The rest of a loop over the elements of something. -/
def elementsRest (rec : Readers) (c : Context) (start : Nat) (awaited : Bool) (init : Tree) :
    Parse Tree := do
  let left ← loopTarget init
  let right ← rec (.assignment c)
  expectPunct .rightParen
  let body ← branch rec c
  finish (.forOf awaited) start [left, right, body]

/-- The rest of a loop over the keys of something, which disposes of no variable. -/
def keysRest (rec : Readers) (c : Context) (start : Nat) (init : Tree) : Parse Tree := do
  match init.label with
  | .variableList kind => flawIf (isDisposed kind)
  | _ => pure ()
  let left ← loopTarget init
  let right ← expression rec c
  expectPunct .rightParen
  let body ← branch rec c
  finish .forIn start [left, right, body]

def forStatement (rec : Readers) (c : Context) : Parse Tree := do
  let start ← here
  advance
  let awaited ← eatWord "await"
  if awaited then checkAwait c
  expectPunct .leftParen
  let init ← loopInit rec c awaited
  if !init.isHole && (← eatWord "of") then elementsRest rec c start awaited init
  else if awaited then reject
  else if !init.isHole && (← eatWord "in") then keysRest rec c start init
  else countingRest rec c start init

def whileStatement (rec : Readers) (c : Context) : Parse Tree := do
  let start ← here
  advance
  let test ← inParens rec c
  let body ← branch rec c
  finish .whileLoop start [test, body]

def doStatement (rec : Readers) (c : Context) : Parse Tree := do
  let start ← here
  advance
  let body ← branch rec c
  expectWord "while"
  let test ← inParens rec c
  let _ ← eatPunct .semicolon
  finish .doWhile start [body, test]

def withStatement (rec : Readers) (c : Context) : Parse Tree := do
  let start ← here
  advance
  let object ← inParens rec c
  let body ← branch rec c
  finish .withStatement start [object, body]

/-! ### Jumps -/

/-- The label that a jump names, on the same line. -/
def jumpLabel : Parse (Option String) := do
  let t ← token
  match t.kind with
  | .word w _ =>
    if t.newline || isReserved w then pure none else advance; pure (some w)
  | _ => pure none

/-- A jump to the place that `label` makes of the name of a labelled statement, if one is given. -/
def jumpStatement (label : Option String → Label) : Parse Tree := do
  let start ← here
  advance
  let name ← jumpLabel
  endStatement
  finish (label name) start []

def returnStatement (rec : Readers) (c : Context) : Parse Tree := do
  let start ← here
  flawIf !c.returns
  advance
  let value ← if ← canEndStatement then holeHere
    else expression rec { c with inOperator := true }
  endStatement
  finish .returnStatement start [value]

def throwStatement (rec : Readers) (c : Context) : Parse Tree := do
  let start ← here
  advance
  if ← onNewLine then reject
  let e ← expression rec c
  endStatement
  finish .throwStatement start [e]

def debuggerStatement : Parse Tree := do
  let start ← here
  advance
  endStatement
  finish .debuggerStatement start []

/-! ### Cases and errors -/

def switchCase (rec : Readers) (c : Context) : Parse (Option Tree) := do
  let start ← here
  if ← atPunct .rightBrace then pure none
  else
    let test ← if ← eatWord "default" then holeHere
      else do
        expectWord "case"
        expression rec c
    expectPunct .colon
    let ss ← many do
      if (← atPunct .rightBrace) || (← atWord "case") || (← atWord "default") then pure none
      else return some (← rec (.statement c false))
    return some (← finish .switchCase start (test :: ss))

def switchStatement (rec : Readers) (c : Context) : Parse Tree := do
  let start ← here
  advance
  let value ← inParens rec c
  expectPunct .leftBrace
  let cases ← many (switchCase rec c)
  expectPunct .rightBrace
  finish .switchStatement start (value :: cases)

def catchClause (rec : Readers) (c : Context) : Parse Tree := do
  let start ← here
  expectWord "catch"
  let param ← if ← eatPunct .leftParen then do
      let p ← rec (.pattern c)
      typeAnnotation rec
      expectPunct .rightParen
      pure p
    else holeHere
  let body ← block rec c
  finish .catchClause start [param, body]

def tryStatement (rec : Readers) (c : Context) : Parse Tree := do
  let start ← here
  advance
  let body ← block rec c
  let handler ← if ← atWord "catch" then catchClause rec c else holeHere
  let final ← if ← eatWord "finally" then block rec c else holeHere
  if handler.isHole && final.isHole then reject
  finish .tryStatement start [body, handler, final]

end LiveNotes.Script.Grammar
