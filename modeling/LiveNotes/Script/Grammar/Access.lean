import LiveNotes.Script.Grammar.Literal
import LiveNotes.Script.Grammar.Markup

/-! Expressions without operators: literals, names, accesses and calls. -/

namespace LiveNotes.Script.Grammar

open Parse

def arguments (rec : Readers) (c : Context) : Parse (List Tree) := do
  expectPunct .leftParen
  let items ← commaList .rightParen (spreadOr rec c)
  expectPunct .rightParen
  pure items

/-- An expression without what is said about how generic it is. -/
def withoutArguments : Tree → Tree
  | .node (.typed .arguments) _ [e] => e
  | t => t

/-- The call of `callee` with the arguments here. -/
def callOf (rec : Readers) (c : Context) (start : Nat) (callee : Tree) (optional : Bool) :
    Parse Tree := do
  let args ← arguments rec c
  finish (.call optional false) start (withoutArguments callee :: args)

/-! ### Imports and objects that a constructor makes -/

def newExpression (rec : Readers) (c : Context) : Parse Tree := do
  let start ← here
  expectWord "new"
  if ← eatPunct .dot then
    expectWord "target"
    finish .newTarget start []
  else
    let callee ← rec (.access c false)
    if ← atPunct .questionDot then reject
    match callee.label with
    | .importCall _ => reject
    | _ =>
      let args ← if ← atPunct .leftParen then arguments rec c else pure []
      finish (.new false) start (withoutArguments callee :: args)

/-- A call that imports a module, from its parenthesis on. -/
def importCall (rec : Readers) (c : Context) (start : Nat) (phase : ImportPhase) : Parse Tree := do
  expectPunct .leftParen
  let args ← commaList .rightParen (rec (.assignment c.inside))
  if args.isEmpty || args.length > 2 then reject
  expectPunct .rightParen
  finish (.importCall phase) start args

def importExpression (rec : Readers) (c : Context) : Parse Tree := do
  let start ← here
  expectWord "import"
  if ← eatPunct .dot then
    match ← wordText with
    | "meta" => finish .importMeta start []
    | "source" => importCall rec c start .source
    | "defer" => importCall rec c start .defer
    | _ => reject
  else importCall rec c start .evaluation

/-! ### Primary expressions -/

def primaryWord (rec : Readers) (c : Context) (w : String) : Parse Tree := do
  let start ← here
  let literal (l : Label) : Parse Tree := do advance; finish l start []
  match w with
  | "function" => functionExpression rec start false
  | "class" => classTree rec c .classExpr start (.hole start)
  | "new" => newExpression rec c
  | "import" => importExpression rec c
  | "this" => literal .thisRef
  | "null" => literal .nullLiteral
  | "true" => literal (.boolLiteral true)
  | "false" => literal (.boolLiteral false)
  | "super" =>
    let t ← literal .superRef
    unless (← atPunct .dot) || (← atPunct .leftParen) || (← atPunct .leftBracket) do reject
    pure t
  | _ =>
    let next ← if w == "async" then some <$> nextToken else pure none
    if next.any fun t => t.kind == .word "function" false && !t.newline then
      advance
      functionExpression rec start true
    else
      let name ← identifierText c
      finish (.read name) start []

def primary (rec : Readers) (c : Context) : Parse Tree := do
  let start ← here
  match ← kind with
  | .word w false => primaryWord rec c w
  | .word _ true =>
    let name ← identifierText c
    finish (.read name) start []
  | .number d => advance; finish (.number d) start []
  | .bigint d => advance; finish (.bigint d) start []
  | .string v s => advance; finish (.string v s) start []
  | .punct .leftParen => parenthesized rec c
  | .punct .leftBracket => arrayLiteral rec c
  | .punct .leftBrace => objectLiteral rec c
  | .punct .backtick => template rec c false
  | .punct .slash | .punct .slashAssign => regex
  | .punct .at =>
    let ds ← decorators rec c
    classTree rec c .classExpr start ds
  | _ => reject

/-! ### Type arguments of expressions -/

/-- Whether an expression can start with the token, words aside. -/
def startsExpression (k : TokenKind) : Bool :=
  match k with
  | .punct p => [Punct.leftParen, .leftBracket, .leftBrace, .backtick, .slash, .slashAssign, .bang,
      .tilde, .plus, .minus, .plus2, .minus2, .less, .at, .hash].contains p
  | .finish | .invalid => false
  | _ => true

/-- Whether the token is an operator that only joins two operands. -/
def joinsOperands (k : TokenKind) : Bool :=
  match k with
  | .punct p => [Punct.question2, .bar2, .amp2, .bar, .caret, .amp, .equal2, .notEqual2, .equal3,
      .notEqual3, .lessEqual, .less2, .star, .slash, .percent, .star2].contains p
  | .word w false => ["instanceof", "as", "satisfies"].contains w
  | _ => false

/-- Whether type arguments that were just read may stand there, judged by the current token. -/
def followsTypeArguments : Parse Bool := do
  let t ← token
  match t.kind with
  | .punct .leftParen | .punct .backtick => pure true
  | .punct .less | .punct .greater | .punct .plus | .punct .minus => pure false
  | k => pure (t.newline || joinsOperands k || !startsExpression k)

/-- Type arguments inside an expression. A `>` that an equals sign follows compares. -/
def expressionTypeArguments (rec : Readers) : Parse Unit := do
  openAngle
  let found ← commaList .greater (typeOnly rec)
  if (← get).after.rest.head? == some '=' then reject
  closeAngle
  if found.isEmpty then reject
  unless ← followsTypeArguments do reject

/-! ### Accesses -/

/-- An expression that was read so far, and whether something in it is accessed only if it exists. -/
structure Accessed where
  tree : Tree
  chained : Bool := false

/-- The key in brackets behind an expression. -/
def indexKey (rec : Readers) (c : Context) : Parse Tree := do
  expectPunct .leftBracket
  let key ← expression rec c.inside
  expectPunct .rightBracket
  pure key

/-- A name or private name behind a dot; one behind type arguments is a fault. -/
def namedAccess (start : Nat) (base : Tree) (optional : Bool) : Parse Tree := do
  flawIf (base.label == .typed .arguments)
  match ← kind with
  | .privateWord w => advance; finish (.privateMember w optional) start [base]
  | .word w _ => advance; finish (.member w optional) start [base]
  | _ => reject

/-- The access behind a mark for optional access, which was just read. -/
def optionalAccess (rec : Readers) (c : Context) (start : Nat) (base : Tree) : Parse Tree := do
  match ← kind with
  | .punct .leftParen => callOf rec c start base true
  | .punct .leftBracket =>
    let key ← indexKey rec c
    finish (.index true) start [base, key]
  | .punct .less | .punct .less2 =>
    unless ← typesAllowed do reject
    typeArguments rec
    callOf rec c start base true
  | _ => namedAccess start base true

/-- One access or, where `calls` allows them, call behind an expression. -/
def access (rec : Readers) (c : Context) (calls : Bool) (start : Nat) (a : Accessed) :
    Parse (Option Accessed) := do
  let step (t : Tree) : Option Accessed := some { a with tree := t }
  match ← kind with
  | .punct .dot =>
    advance
    return step (← namedAccess start a.tree false)
  | .punct .questionDot =>
    if c.decorator then reject
    else if !calls || a.tree.label == .superRef then pure none
    else
      advance
      return some ⟨← optionalAccess rec c start a.tree, true⟩
  | .punct .leftBracket =>
    if c.decorator then pure none
    else
      let key ← indexKey rec c
      return step (← finish (.index false) start [a.tree, key])
  | .punct .backtick =>
    flawIf a.chained
    let t ← template rec c true
    return step (← finish .taggedTemplate start [withoutArguments a.tree, t])
  | .punct .leftParen =>
    if calls then return step (← callOf rec c start a.tree false) else pure none
  | .punct .bang =>
    if (← typesAllowed) && !(← onNewLine) then
      advance
      return step (← finish (.typed .nonNull) start [a.tree])
    else pure none
  | .punct .less | .punct .less2 =>
    if ← typesAllowed then
      match ← attempt (expressionTypeArguments rec) with
      | some _ => return step (← finish (.typed .arguments) start [a.tree])
      | none => pure none
    else pure none
  | _ => pure none

/-- An expression of accesses and, where `calls` allows them, calls. -/
def accesses (rec : Readers) (c : Context) (calls : Bool) : Parse Tree := do
  let start ← here
  let base ← primary rec c
  let a ← loop (access rec c calls start) { tree := base }
  if !a.chained then pure a.tree
  else match a.tree with
    | .node (.typed .arguments) s [e] => return .node (.typed .arguments) s [← finish .chain start [e]]
    | t => finish .chain start [t]

end LiveNotes.Script.Grammar
