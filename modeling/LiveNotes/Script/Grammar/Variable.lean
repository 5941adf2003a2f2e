import LiveNotes.Script.Grammar.Arrow

/-! Assignments, choices between two expressions, what a generator yields, and declarations of variables. -/

namespace LiveNotes.Script.Grammar

open Parse

/-! ### Assignments -/

def assignOfPunct? : Punct → Option AssignOp
  | .assign => some .plain
  | .plusAssign => some (.binary .add)
  | .minusAssign => some (.binary .subtract)
  | .starAssign => some (.binary .multiply)
  | .slashAssign => some (.binary .divide)
  | .percentAssign => some (.binary .remainder)
  | .star2Assign => some (.binary .power)
  | .less2Assign => some (.binary .shiftLeft)
  | .ampAssign => some (.binary .bitAnd)
  | .barAssign => some (.binary .bitOr)
  | .caretAssign => some (.binary .bitXor)
  | .amp2Assign => some (.logical .and)
  | .bar2Assign => some (.logical .or)
  | .question2Assign => some (.logical .coalesce)
  | _ => none

/-- The operator at the current token, and the place behind it. -/
def assignOp? : Parse (Option (AssignOp × Place)) := do
  let s ← get
  match s.token.kind with
  | .punct .greater =>
    let (op, n, assigns) := angleRun s.after.rest
    pure (if assigns then some (.binary op, s.after.skip n) else none)
  | .punct p => pure ((assignOfPunct? p).map (·, s.after))
  | _ => pure none

/-- Whether what a generator yields ends here, before any value. -/
def endsYield (t : Token) : Bool :=
  t.newline || match t.kind with
    | .finish => true
    | .punct p => [Punct.rightParen, .rightBracket, .rightBrace, .comma, .semicolon, .colon].contains p
    | .word w false => w == "in"
    | _ => false

def yieldExpression (rec : Readers) (c₀ : Context) : Parse Tree := do
  let c := { c₀ with resultTypes := true }
  let start ← here
  expectWord "yield"
  if (← atPunct .star) && !(← onNewLine) then
    advance
    let e ← rec (.assignment c)
    finish (.yield true) start [e]
  else
    let e ← if endsYield (← token) then holeHere else rec (.assignment c)
    finish (.yield false) start [e]

/-- The choice that a test decides, from behind the test on; the test itself if there is none. -/
def conditionalRest (rec : Readers) (c : Context) (start : Nat) (test : Tree) : Parse Tree := do
  if ← eatPunct .question then
    let yes ← rec (.assignment { c with inOperator := true, resultTypes := false })
    expectPunct .colon
    let no ← rec (.assignment c)
    finish .conditional start [test, yes, no]
  else pure test

/-- The assignment to what `left` stands for, from its operator on. -/
def assignmentRest (rec : Readers) (c : Context) (start : Nat) (left : Tree) (op : AssignOp)
    (place : Place) : Parse Tree := do
  match target? left with
  | none => reject
  | some t =>
    if (← get).after.pos == place.pos then advance else advanceFrom place
    let value ← rec (.assignment c)
    finish (.assign op) start [t, value]

/-- Marks a function whose calls are free of effects, as a comment in front of it says. -/
def markPureFunction : Tree → Tree
  | .node (.function f) s ks => .node (.function { f with pure := true }) s ks
  | .node (.functionDecl f) s ks => .node (.functionDecl { f with pure := true }) s ks
  | .node (.arrow f) s ks => .node (.arrow { f with pure := true }) s ks
  | t => t

def assignment (rec : Readers) (c : Context) : Parse Tree := do
  let isPure := (← token).pureFunction
  let noted (t : Tree) : Tree := if isPure then markPureFunction t else t
  if c.yields && (← atWord "yield") then yieldExpression rec c
  else match ← arrow? rec c with
    | some t => pure (noted t)
    | none =>
      let start ← here
      let left ← binary rec c 0
      match ← assignOp? with
      | some (op, place) => assignmentRest rec c start left op place
      | none => return noted (← conditionalRest rec c start left)

/-! ### Declarations -/

def isPatternTree (t : Tree) : Bool :=
  match t.label with
  | .objectPattern | .arrayPattern => true
  | _ => false

/-- Whether variables of the kind are disposed of when their block ends. -/
def isDisposed : VariableKind → Bool
  | .using | .awaitUsing => true
  | _ => false

/-- A declared name or pattern and its initial value. A mark that says that the variable will have a
value takes a type and no value. -/
def declarator (rec : Readers) (c : Context) (kind : VariableKind) : Parse Tree := do
  let start ← here
  let p ← rec (.pattern c)
  flawIf (isDisposed kind && isPatternTree p)
  let types ← typesAllowed
  let marked := types && !(isPatternTree p) && (← atPunct .bang) && !(← onNewLine)
  if marked then advance
  let annotated := types && (← atPunct .colon)
  typeAnnotation rec
  let value ← if ← eatPunct .assign then rec (.assignment c) else holeHere
  flawIf (marked && !(annotated && value.isHole))
  finish .declarator start [p, value]

/-- Declarators with commas between them. -/
def variableList (rec : Readers) (c : Context) (start : Nat) (kind : VariableKind) : Parse Tree := do
  let first ← declarator rec c kind
  let others ← many do
    if ← eatPunct .comma then return some (← declarator rec c kind) else pure none
  finish (.variableList kind) start (first :: others)

/-- Constants, patterns and, outside of loops, variables that are disposed of take an initial value. -/
def lacksValue (kind : VariableKind) (inLoop : Bool) : Tree → Bool
  | .node .declarator _ [p, v] =>
    v.isHole && (isPatternTree p || kind == .const || (isDisposed kind && !inLoop))
  | _ => false

/-- A statement that declares variables, from behind its keyword on. -/
def variableStatement (rec : Readers) (c : Context) (start : Nat) (kind : VariableKind) : Parse Tree := do
  let t ← variableList rec c start kind
  flawIf (!c.ambient && t.kids.any (lacksValue kind false))
  endStatement
  finish t.label start t.kids

/-- Whether the word `using` here starts a declaration: a name follows on the same line. -/
def startsUsing : Parse Bool := do
  if ← atWord "using" then
    let next ← nextToken
    pure (isIdentifier next.kind && !next.newline)
  else pure false

/-- As `startsUsing`, behind the word `await`. -/
def startsAwaitUsing : Parse Bool := do
  if ← atWord "await" then
    looksLike do
      advance
      if ← onNewLine then pure false else startsUsing
  else pure false

/-- The kind of variables that the head of a loop declares, if it does. -/
def loopVariables? : Parse (Option VariableKind) := do
  match ← kind with
  | .word "var" false => pure (some .var)
  | .word "const" false => pure (some .const)
  | .word "let" false =>
    match (← nextToken).kind with
    | .word w _ => pure (if w == "in" then none else some .letKind)
    | .punct .leftBracket | .punct .leftBrace => pure (some .letKind)
    | _ => pure none
  | .word "using" false =>
    let next ← nextToken
    pure (if (← startsUsing) && next.kind != .word "of" false then some .using else none)
  | .word "await" false => return if ← startsAwaitUsing then some .awaitUsing else none
  | _ => pure none

/-- Moves over the keyword of a declaration. -/
def skipKeyword (kind : VariableKind) : Parse Unit := do
  if kind == .awaitUsing then advance
  advance

end LiveNotes.Script.Grammar
