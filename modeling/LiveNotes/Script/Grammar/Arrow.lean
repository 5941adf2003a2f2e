import LiveNotes.Script.Grammar.Operator

/-! Arrow functions. What stands in front of an arrow looks like an expression, so a few tokens are
looked at first: they may settle the question, and otherwise both are tried. -/

namespace LiveNotes.Script.Grammar

open Parse

/-- What a few tokens show of whether an arrow function starts with them. -/
inductive Likelihood where
  | no | maybe | yes
  deriving DecidableEq, Repr

/-! ### Looking ahead -/

/-- Judges the token behind the first name in parentheses. -/
def afterFirstName : Parse Likelihood := do
  match ← kind with
  | .punct .colon => pure .yes
  | .punct .question =>
    match (← nextToken).kind with
    | .punct .colon | .punct .comma | .punct .assign | .punct .rightParen => pure .yes
    | _ => pure .no
  | .punct .comma | .punct .assign | .punct .rightParen => pure .maybe
  | _ => pure .no

/-- Judges parentheses that start with a word. -/
def afterFirstWord (w : String) : Parse Likelihood := do
  let next := (← nextToken).kind
  if (modifierOfWord? w).isSome && w != "async" && isIdentifier next then
    pure (if next == .word "as" false then .no else .yes)
  else if isReserved w && w != "this" then pure .no
  else
    advance
    afterFirstName

/-- Judges what an opening parenthesis starts. -/
def parenLikelihood : Parse Likelihood := do
  expectPunct .leftParen
  match ← kind with
  | .punct .rightParen =>
    match (← nextToken).kind with
    | .punct .arrow | .punct .leftBrace => pure .yes
    | .punct .colon => return if ← typesAllowed then .maybe else .no
    | _ => pure .no
  | .punct .leftBracket | .punct .leftBrace => pure .maybe
  | .punct .ellipsis => return if isIdentifier (← nextToken).kind then .yes else .maybe
  | .word w _ => afterFirstWord w
  | _ => pure .no

/-- Judges what an angle starts. Where markup is allowed, type parameters must look like nothing
else. -/
def angleLikelihood : Parse Likelihood := do
  expectPunct .less
  unless (← atIdentifier) || (← atWord "const") do return .no
  if !(← markupAllowed) then pure .maybe
  else
    advance
    match ← kind with
    | .word "extends" false =>
      match (← nextToken).kind with
      | .punct .assign | .punct .greater | .punct .slash => pure .no
      | _ => pure .yes
    | .punct .comma | .punct .assign => pure .yes
    | _ => pure .no

/-- Judges what the current token starts, perhaps behind the word `async`. -/
def arrowLikelihood : Parse Likelihood := do
  let judged : Parse Likelihood := do
    if ← eatWord "async" then
      if ← onNewLine then return .no
    match ← kind with
    | .punct .leftParen => parenLikelihood
    | .punct .less => if ← typesAllowed then angleLikelihood else pure .no
    | _ => pure .no
  match ← kind with
  | .punct .leftParen | .punct .less | .word "async" false => return (← lookahead judged).getD .no
  | _ => pure .no

/-! ### Reading -/

/-- The context of the body of an arrow function, in which `in` means what it means around it. -/
def insideArrow (c : Context) (isAsync : Bool) : Context :=
  { insideFunction isAsync false with inOperator := c.inOperator }

/-- An arrow function from its arrow on. -/
def arrowRest (rec : Readers) (c : Context) (start : Nat) (isAsync : Bool) (ps : Tree) :
    Parse Tree := do
  if ← onNewLine then reject
  expectPunct .arrow
  let inner := insideArrow c isAsync
  if ← atPunct .leftBrace then
    let body ← functionBody rec inner
    finish (.arrow { isAsync }) start [ps, body]
  else
    let body ← rec (.assignment { inner with returns := false, resultTypes := c.resultTypes })
    finish (.arrow { isAsync, concise := true }) start [ps, body]

/-- An arrow function whose parameters are in parentheses. -/
def parenArrow (rec : Readers) (c : Context) : Parse Tree := do
  let start ← here
  let isAsync ← eatWord "async"
  if ← typesAllowed then typeParameters rec
  let ps ← parameters rec { awaits := c.awaits || isAsync, yields := c.yields } .arrow
  let annotated ← resultAnnotation rec
  let t ← arrowRest rec c start isAsync ps
  if annotated && !c.resultTypes && !(← atPunct .colon) then reject
  pure t

/-- An arrow function with a single name for parameters. -/
def nameArrow (rec : Readers) (c : Context) (start : Nat) (isAsync : Bool) : Parse Tree := do
  let name ← bindingName { c with awaits := c.awaits || isAsync }
  let ps ← finish .params name.span.start [name]
  arrowRest rec c start isAsync ps

/-- An arrow function with a single name, if one starts here. -/
def nameArrow? (rec : Readers) (c : Context) : Parse (Option Tree) := do
  let start ← here
  if !(← atIdentifier) then return none
  let next ← nextToken
  if next.kind == .punct .arrow then return some (← nameArrow rec c start false)
  if (← atWord "async") && isIdentifier next.kind && !next.newline then
    if ← looksLike (do advance; advance; atPunct .arrow) then
      advance
      return some (← nameArrow rec c start true)
  return none

/-- An arrow function, if one starts here. -/
def arrow? (rec : Readers) (c : Context) : Parse (Option Tree) := do
  match ← arrowLikelihood with
  | .yes => return some (← parenArrow rec { c with resultTypes := true })
  | .maybe =>
    match ← attempt (parenArrow rec c) with
    | some t => pure (some t)
    | none => nameArrow? rec c
  | .no => nameArrow? rec c

end LiveNotes.Script.Grammar
