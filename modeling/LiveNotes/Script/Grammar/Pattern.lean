import LiveNotes.Script.Grammar.Modifier

/-! Binding patterns, and the lists of parameters made of them. -/

namespace LiveNotes.Script.Grammar

open Parse

/-- A type behind a colon, if there is one. -/
def typeAnnotation (rec : Readers) : Parse Unit := do
  if ← typesAllowed then
    if ← eatPunct .colon then
      let _ ← rec (.type true)

/-- A pattern and its default, if there is one. -/
def withDefault (rec : Readers) (c : Context) (pattern : Parse Tree) : Parse Tree := do
  let start ← here
  let p ← pattern
  if ← eatPunct .assign then
    let value ← rec (.assignment c.inside)
    finish .withDefault start [p, value]
  else pure p

/-- A property whose key is the name that it binds. -/
def bindingShorthand (rec : Readers) (c : Context) (key : Tree) (w : String) : Parse Tree := do
  useName c w
  let start := key.span.start
  let name := Tree.node (.binding w) key.span []
  if ← eatPunct .assign then
    let value ← rec (.assignment c.inside)
    let full ← finish .withDefault start [name, value]
    finish (.bindingProperty false true) start [key, full]
  else finish (.bindingProperty false true) start [key, name]

def bindingProperty (rec : Readers) (c : Context) : Parse Tree := do
  let start ← here
  if ← eatPunct .ellipsis then
    let p ← bindingName c
    unless ← atPunct .rightBrace do reject
    finish .rest start [p]
  else
    let atName ← atIdentifier
    let (key, computed) ← propertyKey rec c
    match key.label with
    | .privateName _ => reject
    | label =>
      if ← eatPunct .colon then
        let value ← withDefault rec c (rec (.pattern c))
        finish (.bindingProperty computed false) start [key, value]
      else match atName, label with
        | true, .name w => bindingShorthand rec c key w
        | _, _ => reject

def bindingElement (rec : Readers) (c : Context) : Parse Tree := do
  if ← atPunct .comma then holeHere
  else
    let start ← here
    if ← eatPunct .ellipsis then
      let p ← rec (.pattern c)
      unless ← atPunct .rightBracket do reject
      finish .rest start [p]
    else withDefault rec c (rec (.pattern c))

/-- A name, or a pattern in braces or brackets. -/
def pattern (rec : Readers) (c : Context) : Parse Tree := do
  let start ← here
  match ← kind with
  | .punct .leftBrace =>
    advance
    let props ← commaList .rightBrace (bindingProperty rec c)
    expectPunct .rightBrace
    finish .objectPattern start props
  | .punct .leftBracket =>
    advance
    let items ← commaList .rightBracket (bindingElement rec c)
    expectPunct .rightBracket
    finish .arrayPattern start items
  | _ => bindingName c

/-! ### Parameters -/

/-- Decorators in front of a class, member or parameter. -/
def decorators (rec : Readers) (c : Context) : Parse Tree := do
  let start ← here
  let found ← many do
    if ← eatPunct .at then return some (← rec (.access { c.inside with decorator := true } true))
    else pure none
  if found.isEmpty then pure (.hole start) else finish .decorators start found

/-- What has parameters: only those of a constructor may declare fields, and only plain functions and
methods may state the type of `this`. -/
inductive ParameterOwner where
  | constructor | arrow | plain
  deriving DecidableEq, Repr

/-- Whether a parameter of a constructor with the modifier declares a field. -/
def declaresField : Modifier → Bool
  | .visibility _ | .readonly | .override => true
  | _ => false

/-- The last parameter, behind its dots, which takes all further arguments. -/
def restParameter (rec : Readers) (c : Context) (start : Nat) : Parse Tree := do
  let p ← rec (.pattern c)
  typeAnnotation rec
  unless ← atPunct .rightParen do
    unless c.ambient && (← nextToken).kind == .punct .rightParen do reject
  finish .rest start [p]

/-- A parameter behind its decorators. -/
def plainParameter (rec : Readers) (c : Context) (owner : ParameterOwner) : Parse Tree := do
  let start ← here
  let ms ← modifiers .elsewhere
  if ← eatPunct .ellipsis then
    flawIf !ms.isEmpty
    restParameter rec c start
  else
    let p ← rec (.pattern c)
    let optional ← if ← typesAllowed then eatPunct .question else pure false
    typeAnnotation rec
    let full ← if ← eatPunct .assign then do
        flawIf optional
        let value ← rec (.assignment c.inside)
        finish .withDefault start [p, value]
      else pure p
    if ms.isEmpty then pure full
    else if owner == .constructor then
      checkModifiers declaresField ms
      match p.label with
      | .binding _ => pure ()
      | _ => flaw
      finish .fieldParam start [full]
    else
      checkModifiers (· == .readonly) ms
      pure full

def parameter (rec : Readers) (c : Context) (owner : ParameterOwner) : Parse Tree := do
  let start ← here
  let ds ← decorators rec c
  if ds.isHole then plainParameter rec c owner
  else
    if ← atPunct .ellipsis then reject
    let p ← plainParameter rec c owner
    finish .decoratedParam start [ds, p]

/-- A parameter without its decorators. -/
def undecorated (param : Tree) : Tree :=
  match param with
  | .node .decoratedParam _ [_, p] => p
  | _ => param

/-- A parameter that only states the type of `this`. -/
def thisParameter (rec : Readers) : Parse Unit := do
  expectWord "this"
  typeAnnotation rec
  unless ← atPunct .rightParen do expectPunct .comma

/-- Parameters in parentheses. -/
def parameters (rec : Readers) (c : Context) (owner : ParameterOwner) : Parse Tree := do
  let start ← here
  expectPunct .leftParen
  if (← typesAllowed) && (← atWord "this") then
    flawIf (owner != .plain)
    thisParameter rec
  let items ← commaList .rightParen (parameter rec c owner)
  expectPunct .rightParen
  finish .params start items

end LiveNotes.Script.Grammar
