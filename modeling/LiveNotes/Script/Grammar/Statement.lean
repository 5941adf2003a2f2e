import LiveNotes.Script.Grammar.Control
import LiveNotes.Script.Grammar.Export

/-! Statements by their first word. -/

namespace LiveNotes.Script.Grammar

open Parse

/-! ### Expressions and labels -/

/-- An expression, or a statement behind a label. -/
def expressionStatement (rec : Readers) (c : Context) : Parse Tree := do
  let start ← here
  let e ← expression rec c
  let label? ← match e.label with
    | .read name => if ← eatPunct .colon then pure (some name) else pure none
    | _ => pure none
  match label? with
  | some name =>
    let body ← rec (.statement c true)
    finish (.labeled name) start [body]
  | none =>
    endStatement
    finish .expressionStatement start [e]

/-! ### Declarations -/

/-- A function declaration; where one stands alone it must be plain. -/
def functionStatement (rec : Readers) (c : Context) (start : Nat) (isAsync alone : Bool) :
    Parse Tree := do
  flawIf (alone && (isAsync || (← nextToken).kind == .punct .star))
  functionDeclaration rec c start isAsync false

/-- A declaration for a block, which must not stand alone. -/
def lexicalStatement (rec : Readers) (c : Context) (alone : Bool) (kind : VariableKind) :
    Parse Tree := do
  let start ← here
  flawIf alone
  skipKeyword kind
  variableStatement rec c start kind

/-- Whether the token behind the word `let` makes a variable of it. -/
def usesLet (next : TokenKind) : Bool :=
  match next with
  | .punct p => (assignOfPunct? p).isSome || [Punct.equal2, .notEqual2, .equal3, .notEqual3, .less,
      .lessEqual, .greater, .less2, .plus, .minus, .star, .slash, .percent, .bar, .caret, .amp,
      .star2].contains p
  | .word w false => w == "in" || w == "instanceof"
  | _ => false

/-- A statement that starts with the word `let`, which may be a variable. -/
def letStatement (rec : Readers) (c : Context) (alone : Bool) : Parse Tree := do
  let start ← here
  let next := (← nextToken).kind
  if usesLet next then
    let e ← rec (.assignment c)
    endStatement
    finish .expressionStatement start [e]
  else if next == .punct .dot || next == .punct .leftParen then
    let e ← expression rec c
    finish .expressionStatement start [e]
  else if (alone && next != .punct .leftBracket) || next == .punct .semicolon then
    let name ← identifierText c
    let e ← finish (.read name) start []
    endStatement
    finish .expressionStatement start [e]
  else lexicalStatement rec c alone .letKind

def classStatement (rec : Readers) (c : Context) (h : DeclarationHead) (alone : Bool) : Parse Tree := do
  flawIf alone
  unless ← atWord "class" do reject
  declaration rec c h

/-- A declaration with what describes it in front. -/
def typedStatement (rec : Readers) (c : Context) : Parse Tree := do
  let start ← here
  declaration rec c ⟨start, .hole start, ← modifiers .declaration⟩

/-- An export or class behind its decorators. -/
def decoratedStatement (rec : Readers) (c : Context) (alone : Bool) : Parse Tree := do
  let start ← here
  let ds ← decorators rec c
  if ← atWord "export" then exportDeclaration rec c ds
  else classStatement rec c ⟨start, ds, ← modifiers .declaration⟩ alone

/-! ### Words -/

/-- The words that start a declaration only where one follows that describes types. -/
def declarationWords : List String :=
  ["interface", "type", "module", "namespace", "declare", "enum", "private", "protected", "public",
   "abstract", "accessor", "static", "readonly", "global"]

/-- A statement that starts with a word that is no keyword in every position. -/
def softWordStatement (rec : Readers) (c : Context) (alone : Bool) (w : String) : Parse Tree := do
  let start ← here
  match w with
  | "let" => letStatement rec c alone
  | "async" =>
    let next ← nextToken
    if next.kind == .word "function" false && !next.newline then
      advance
      functionStatement rec c start true alone
    else expressionStatement rec c
  | "using" =>
    if ← startsUsing then lexicalStatement rec c alone .using else expressionStatement rec c
  | "await" =>
    if ← startsAwaitUsing then lexicalStatement rec c alone .awaitUsing
    else expressionStatement rec c
  | _ =>
    if declarationWords.contains w && (← typesAllowed) && (← startsDeclaration) then
      typedStatement rec c
    else expressionStatement rec c

/-- An import declaration, or an expression that imports. -/
def importStatement (rec : Readers) (c : Context) : Parse Tree := do
  match (← nextToken).kind with
  | .punct .leftParen | .punct .dot => expressionStatement rec c
  | _ => importDeclaration c

def wordStatement (rec : Readers) (c : Context) (alone : Bool) (w : String) : Parse Tree := do
  let start ← here
  match w with
  | "var" =>
    advance
    variableStatement rec c start .var
  | "const" =>
    if (← typesAllowed) && (← nextToken).kind == .word "enum" false then
      declaration rec c ⟨start, .hole start, []⟩
    else lexicalStatement rec c alone .const
  | "function" => functionStatement rec c start false alone
  | "class" => classStatement rec c ⟨start, .hole start, []⟩ alone
  | "if" => ifStatement rec c
  | "for" => forStatement rec c
  | "while" => whileStatement rec c
  | "do" => doStatement rec c
  | "continue" => jumpStatement .continueStatement
  | "break" => jumpStatement .breakStatement
  | "return" => returnStatement rec c
  | "with" => withStatement rec c
  | "switch" => switchStatement rec c
  | "throw" => throwStatement rec c
  | "try" => tryStatement rec c
  | "debugger" => debuggerStatement
  | "import" => importStatement rec c
  | "export" => exportDeclaration rec c (.hole start)
  | _ =>
    if isReserved w && w != "enum" then expressionStatement rec c
    else softWordStatement rec c alone w

/-! ### Effect notes -/

/-- Marks the function that a statement declares as free of effects when it is called, as a comment
in front of the statement says; of constants, the first one is meant. -/
def markPureStatement (t : Tree) : Tree :=
  match t with
  | .node (.functionDecl _) _ _ => markPureFunction t
  | .node (.variableList .const) s (d :: ds) => .node (.variableList .const) s (first d :: ds)
  | .node .exportDefault s [d] => .node .exportDefault s [markPureFunction d]
  | .node .exportDecl s [.node (.variableList .const) vs (d :: ds)] =>
    .node .exportDecl s [.node (.variableList .const) vs (first d :: ds)]
  | .node .exportDecl s [d] => .node .exportDecl s [markPureFunction d]
  | _ => t
where
  first : Tree → Tree
    | .node .declarator s [p, v] => .node .declarator s [p, markPureFunction v]
    | d => d

def plainStatement (rec : Readers) (c : Context) (alone : Bool) : Parse Tree := do
  let start ← here
  match ← kind with
  | .punct .leftBrace => block rec c
  | .punct .semicolon =>
    advance
    finish .emptyStatement start []
  | .punct .at => decoratedStatement rec c alone
  | .word w false => wordStatement rec c alone w
  | _ => expressionStatement rec c

/-- A statement, declaration, import or export. -/
def statement (rec : Readers) (c : Context) (alone : Bool) : Parse Tree := do
  let isPure := (← token).pureFunction
  let t ← plainStatement rec c alone
  pure (if isPure then markPureStatement t else t)

end LiveNotes.Script.Grammar
