import LiveNotes.Script.Token.Lexer

/-! The state in which a script is read: the current token, what follows it, and what has been seen
so far. A step either fails, and whoever called it may go back to an earlier cursor, or goes on; a
fault after which reading can go on is noted in the cursor. -/

namespace LiveNotes.Script

/-- The extensions of the language that a text may use. -/
structure Dialect where
  types : Bool
  markup : Bool
  deriving DecidableEq, Repr

structure Cursor where
  /-- The place of the current token. -/
  start : Place
  token : Token
  /-- The place behind the current token. -/
  after : Place
  /-- Where the token before the current one ended. -/
  lastStop : Nat
  /-- The comments that belong to tokens so far, latest first. -/
  comments : List Comment := []
  /-- The contents of all comments so far, latest first. -/
  remarks : List String := []
  /-- Whether a fault was found that does not end the reading. -/
  flawed : Bool := false
  /-- Whether a fault was found that is none if the text turns out to be a module. -/
  scriptFlawed : Bool := false
  /-- Whether a module would wait where the text so far, read as a script, names a variable. -/
  namesAwait : Bool := false
  dialect : Dialect
  /-- A bound on the number of characters, hence on the steps of every loop. -/
  size : Nat

abbrev Parse := StateT Cursor Option

namespace Parse

/-- Stops reading: the current token does not fit. -/
def reject {α : Type} : Parse α := fun _ => none

/-- Notes a fault and goes on. -/
def flaw : Parse Unit := modify ({ · with flawed := true })

def flawIf (b : Bool) : Parse Unit := if b then flaw else pure ()

/-- Notes a fault that only a script has. -/
def flawScript : Parse Unit := modify ({ · with scriptFlawed := true })

/-- Runs `p`; when it fails, nothing has happened. -/
def attempt {α : Type} (p : Parse α) : Parse (Option α) := fun c =>
  match p c with
  | some (a, c') => some (some a, c')
  | none => some (none, c)

/-- The result of `p` from here, without moving. -/
def lookahead {α : Type} (p : Parse α) : Parse (Option α) := fun c =>
  match p c with
  | some (a, _) => some (some a, c)
  | none => some (none, c)

/-- Repeats `step` until it returns `none`, at most `n` times. -/
def iterate {α : Type} (step : α → Parse (Option α)) : Nat → α → Parse α
  | 0, _ => reject
  | n + 1, a => do
    match ← step a with
    | none => pure a
    | some b => iterate step n b

/-- Repeats `step` until it returns `none`; every step reads at least one character. -/
def loop {α : Type} (step : α → Parse (Option α)) (a : α) : Parse α := do
  iterate step ((← get).size + 1) a

/-- One more result of `item` in front of those found so far, if it returns one. -/
def manyStep {α : Type} (item : Parse (Option α)) (found : List α) : Parse (Option (List α)) := do
  match ← item with
  | none => pure none
  | some a => pure (some (a :: found))

/-- The results of `item`, in order, until it returns `none`. -/
def many {α : Type} (item : Parse (Option α)) : Parse (List α) := do
  let found ← loop (manyStep item) []
  pure found.reverse

/-! ### Moving on -/

/-- Reads the token at `place`, where `trivia` says what stands directly before. -/
def readAt (trivia : Trivia) (place : Place) : Parse Unit := modify fun c =>
  let r := readToken (c.size + 1) trivia place
  { c with
    start := r.start, token := r.token, after := r.after
    comments := r.comments ++ c.comments, remarks := r.remarks ++ c.remarks }

def keepsComments : TokenKind → Bool
  | .punct .assign | .punct .leftParen => true
  | _ => false

/-- Moves to the next token. -/
def advance : Parse Unit := do
  let c ← get
  set { c with lastStop := c.token.span.stop }
  readAt { keeps := keepsComments c.token.kind } c.after

/-- Takes the characters up to `place` for the current token and moves to the next one. -/
def advanceFrom (place : Place) : Parse Unit := do
  modify ({ · with lastStop := place.pos })
  readAt {} place

def token : Parse Token := return (← get).token

def kind : Parse TokenKind := return (← get).token.kind

/-- The position of the current token. -/
def here : Parse Nat := return (← get).token.span.start

def typesAllowed : Parse Bool := return (← get).dialect.types

def markupAllowed : Parse Bool := return (← get).dialect.markup

/-- A node from `start` to the end of the token before the current one. -/
def finish (label : Label) (start : Nat) (kids : List Tree) : Parse Tree :=
  return .node label ⟨start, (← get).lastStop⟩ kids

def holeHere : Parse Tree := return .hole (← here)

/-! ### Tests of the current token -/

def atPunct (p : Punct) : Parse Bool := return (← kind) == .punct p

def eatPunct (p : Punct) : Parse Bool := do
  if ← atPunct p then advance; pure true else pure false

def expectPunct (p : Punct) : Parse Unit := do
  unless ← eatPunct p do reject

def atWord (w : String) : Parse Bool := return (← kind) == .word w false

def eatWord (w : String) : Parse Bool := do
  if ← atWord w then advance; pure true else pure false

def expectWord (w : String) : Parse Unit := do
  unless ← eatWord w do reject

/-- Whether a line ends between the token before and the current one. -/
def onNewLine : Parse Bool := return (← token).newline

/-- The token after the current one. -/
def nextToken : Parse Token := do
  match ← lookahead (do advance; token) with
  | some t => pure t
  | none => reject

/-- Whether the test `p`, which may move on, succeeds from here. -/
def looksLike (p : Parse Bool) : Parse Bool := return (← lookahead p).getD false

/-- Whether a statement may end here without a semicolon. -/
def canEndStatement : Parse Bool := do
  let t ← token
  pure (t.newline || t.kind == .punct .semicolon || t.kind == .punct .rightBrace || t.kind == .finish)

/-- The end of a statement: a semicolon, which a line end, a closing brace or the end of the text
may stand for. -/
def endStatement : Parse Unit := do
  unless ← eatPunct .semicolon do
    unless ← canEndStatement do reject

end Parse

/-- The words that never name a variable. -/
def reservedWords : List String :=
  ["break", "case", "catch", "class", "const", "continue", "debugger", "default", "delete", "do",
   "else", "enum", "export", "extends", "false", "finally", "for", "function", "if", "import", "in",
   "instanceof", "new", "null", "return", "super", "switch", "this", "throw", "true", "try",
   "typeof", "var", "void", "while", "with"]

def isReserved (w : String) : Bool := reservedWords.contains w

/-- What surrounds the text being read. -/
structure Context where
  /-- Whether `in` is an operator here. -/
  inOperator : Bool := true
  yields : Bool := false
  awaits : Bool := false
  /-- Whether the text waits here if it turns out to be a module. -/
  undecided : Bool := false
  returns : Bool := false
  /-- Whether an arrow function may state its result type, as a colon may mean something else. -/
  resultTypes : Bool := true
  /-- Whether only types are declared. -/
  ambient : Bool := false
  /-- Whether the expression of a decorator is read, behind which a bracket starts a name. -/
  decorator : Bool := false
  deriving DecidableEq, Repr

/-- The context inside of brackets, where no mark of the text around them is waited for. -/
def Context.inside (c : Context) : Context :=
  { c with inOperator := true, resultTypes := true, decorator := false }

/-- What can be read anywhere inside itself. -/
inductive Goal where
  | assignment (c : Context)
  /-- Operators of at least the given precedence. -/
  | binary (c : Context) (precedence : Nat)
  | unary (c : Context)
  /-- An expression with accesses and, if `calls` allows them, calls. -/
  | access (c : Context) (calls : Bool)
  | pattern (c : Context)
  /-- A statement; one that stands alone in a branch or loop declares nothing for a block. -/
  | statement (c : Context) (alone : Bool)
  /-- A type; `choices` when it may be a choice between two types. -/
  | type (choices : Bool)
  | element (c : Context)
  deriving DecidableEq, Repr

/-- The readers of all goals. -/
abbrev Readers := Goal → Parse Tree

end LiveNotes.Script
