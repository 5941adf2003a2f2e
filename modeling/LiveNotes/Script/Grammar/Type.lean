import LiveNotes.Script.Grammar.Name
import LiveNotes.Script.Grammar.Pattern

/-! Types. They leave no trace in a tree, so every reader here only moves over its text. -/

namespace LiveNotes.Script.Grammar

open Parse

def typeOnly (rec : Readers) : Parse Unit := do
  let _ ← rec (.type true)

/-! ### Lists in angles -/

def atAngle : Parse Bool := return (← atPunct .less) || (← atPunct .less2)

/-- Moves over the first `<` of the current token. -/
def openAngle : Parse Unit := do
  if ← atPunct .less2 then advanceFrom ((← get).start.skip 1) else expectPunct .less

/-- Moves over the `>` that closes a list of types. -/
def closeAngle : Parse Unit := expectPunct .greater

def typeArguments (rec : Readers) : Parse Unit := do
  openAngle
  let found ← commaList .greater (typeOnly rec)
  if found.isEmpty then reject
  closeAngle

/-- Type arguments on the same line, if there are any. -/
def typeArguments? (rec : Readers) : Parse Unit := do
  if (← atAngle) && !(← onNewLine) then typeArguments rec

/-- Whether a type parameter may have the modifier. -/
def isVariance (m : Modifier) : Bool := m == .inward || m == .outward || m == .const

def typeParameter (rec : Readers) : Parse Unit := do
  checkModifiers isVariance (← modifiers .elsewhere)
  let _ ← identifierText {}
  if ← eatWord "extends" then typeOnly rec
  if ← eatPunct .assign then typeOnly rec

/-- Parameters of a generic declaration, if there are any. -/
def typeParameters (rec : Readers) : Parse Unit := do
  if ← eatPunct .less then
    let found ← commaList .greater (typeParameter rec)
    if found.isEmpty then reject
    closeAngle

/-! ### Results of functions -/

/-- The result type of a function: a type, or what the result says about an argument. -/
def resultType (rec : Readers) : Parse Unit := do
  let subject : Parse Unit := do
    let _ ← identifierText {}
    if ← onNewLine then reject
    expectWord "is"
  let _ ← attempt subject
  typeOnly rec

/-- The result type behind a colon, if there is one; whether there is. -/
def resultAnnotation (rec : Readers) : Parse Bool := do
  if (← typesAllowed) && (← eatPunct .colon) then
    resultType rec
    pure true
  else pure false

/-- Readers of types that are no choice between two types. -/
def withoutChoices (rec : Readers) : Readers
  | .type _ => rec (.type false)
  | goal => rec goal

/-- A function type, or the type of a constructor, which has the word `new` in front. Where it may be
no choice between two types, neither may the types of its parameters and result. -/
def functionType (outer : Readers) (choices : Bool) : Parse Unit := do
  let rec_ := if choices then outer else withoutChoices outer
  let _ ← eatWord "abstract"
  let _ ← eatWord "new"
  typeParameters rec_
  let _ ← parameters rec_ {} .plain
  expectPunct .arrow
  resultType rec_

/-- Moves over the modifiers and the name or pattern of a parameter; whether there is one. -/
def skipParameterStart (rec : Readers) : Parse Bool := do
  let _ ← modifiers .elsewhere
  match ← kind with
  | .punct .leftBracket | .punct .leftBrace =>
    let _ ← rec (.pattern {})
    pure true
  | .word w _ => if isReserved w && w != "this" then pure false else advance; pure true
  | _ => pure false

/-- Whether the parenthesis here opens the parameters of a function type. -/
def opensParameters (rec : Readers) : Parse Bool := looksLike do
  advance
  match ← kind with
  | .punct .rightParen | .punct .ellipsis => pure true
  | _ =>
    if ← skipParameterStart rec then
      match ← kind with
      | .punct .colon | .punct .comma | .punct .question | .punct .assign => pure true
      | .punct .rightParen => return (← nextToken).kind == .punct .arrow
      | _ => pure false
    else pure false

/-- Whether a function type or the type of a constructor starts here. -/
def startsFunctionType (rec : Readers) : Parse Bool := do
  match ← kind with
  | .punct .less => pure true
  | .punct .leftParen => opensParameters rec
  | .word "new" false => pure true
  | .word "abstract" false => return (← nextToken).kind == .word "new" false
  | _ => pure false

/-! ### Members of object types -/

/-- The end of a member of an object type. -/
def endMember : Parse Unit := do
  unless ← eatPunct .comma do endStatement

def signature (rec : Readers) : Parse Unit := do
  typeParameters rec
  let _ ← parameters rec {} .plain
  let _ ← resultAnnotation rec

/-- A signature such as `[key: string]: value`. -/
def indexSignature (rec : Readers) : Parse Unit := do
  expectPunct .leftBracket
  let _ ← wordText
  expectPunct .colon
  typeOnly rec
  expectPunct .rightBracket
  expectPunct .colon
  typeOnly rec

/-- Whether the bracket here opens an index signature and not a computed key. -/
def opensIndexSignature : Parse Bool := looksLike do
  expectPunct .leftBracket
  match ← kind with
  | .punct .ellipsis | .punct .rightBracket => pure true
  | .word w _ =>
    let modifier := (modifierOfWord? w).isSome
    if isReserved w && !modifier then pure false
    else
      advance
      if modifier && (← atIdentifier) then pure true
      else match ← kind with
        | .punct .colon | .punct .comma => pure true
        | .punct .question =>
          let next := (← nextToken).kind
          pure (next == .punct .colon || next == .punct .comma || next == .punct .rightBracket)
        | _ => pure false
  | _ => pure false

/-- Moves over the word `w` when it makes an accessor of what follows. -/
def accessorWord (w : String) : Parse Bool := do
  if (← atWord w) then
    let next := (← nextToken).kind
    if isPropertyKey next || next == .punct .leftBracket then advance; pure true else pure false
  else pure false

/-- The key of a member of an object type, which is not private. -/
def signatureKey (rec : Readers) : Parse Unit := do
  let (key, _) ← propertyKey rec {}
  if let .privateName _ := key.label then reject

/-- The description of an accessor from its key on; only one that gives a value has a result. -/
def accessorSignature (rec : Readers) (gives : Bool) : Parse Unit := do
  signatureKey rec
  let _ ← parameters rec {} .plain
  let annotated ← resultAnnotation rec
  flawIf (annotated && !gives)

/-- A property or method of an object type. -/
def memberSignature (rec : Readers) : Parse Unit := do
  signatureKey rec
  let _ ← eatPunct .question
  if (← atPunct .leftParen) || (← atPunct .less) then signature rec
  else typeAnnotation rec

/-- Whether the word `new` here describes a constructor and is no key. -/
def opensConstructor : Parse Bool := do
  if ← atWord "new" then
    let next := (← nextToken).kind
    pure (next == .punct .leftParen || next == .punct .less)
  else pure false

def objectTypeMember (rec : Readers) : Parse Unit := do
  if (← atPunct .leftParen) || (← atPunct .less) then signature rec
  else if ← opensConstructor then advance; signature rec
  else
    checkModifiers (· == .readonly) (← modifiers .elsewhere)
    if ← accessorWord "get" then accessorSignature rec true
    else if ← accessorWord "set" then accessorSignature rec false
    else if (← atPunct .leftBracket) && (← opensIndexSignature) then indexSignature rec
    else memberSignature rec
  endMember

def isSign (k : TokenKind) : Bool := k == .punct .plus || k == .punct .minus

/-- Moves over a sign and the mark behind it, or over the mark alone. -/
def signedMark (eatMark : Parse Bool) : Parse Unit := do
  if isSign (← kind) then
    advance
    unless ← eatMark do reject
  else
    let _ ← eatMark

/-- Whether the brace here opens a mapped type. -/
def opensMappedType : Parse Bool := looksLike do
  advance
  if isSign (← kind) then return (← nextToken).kind == .word "readonly" false
  let _ ← eatWord "readonly"
  expectPunct .leftBracket
  if ← atIdentifier then return (← nextToken).kind == .word "in" false
  else pure false

def mappedType (rec : Readers) : Parse Unit := do
  expectPunct .leftBrace
  signedMark (eatWord "readonly")
  expectPunct .leftBracket
  let _ ← identifierText {}
  expectWord "in"
  typeOnly rec
  if ← eatWord "as" then typeOnly rec
  expectPunct .rightBracket
  signedMark (eatPunct .question)
  typeAnnotation rec
  endStatement
  expectPunct .rightBrace

/-- The members of an object type or interface in braces. -/
def membersInBraces (rec : Readers) : Parse Unit := do
  expectPunct .leftBrace
  let _ ← many do
    if ← atPunct .rightBrace then pure none
    else objectTypeMember rec; pure (some ())
  expectPunct .rightBrace

def objectType (rec : Readers) : Parse Unit := do
  if ← opensMappedType then mappedType rec else membersInBraces rec

/-! ### Types from names up to choices -/

/-- A dotted name; its first part may be any word. -/
def entityName : Parse Unit := do
  let _ ← wordText
  let _ ← loop (fun (_ : Unit) => do
    if ← eatPunct .dot then
      let _ ← wordText
      pure (some ())
    else pure none) ()

/-- An entity with type arguments, as a class or interface extends it. -/
def heritageType (rec : Readers) : Parse Unit := do
  let _ ← identifierText {}
  let _ ← loop (fun (_ : Unit) => do
    if ← eatPunct .dot then
      let _ ← wordText
      pure (some ())
    else pure none) ()
  typeArguments? rec

/-- Entities with commas between them. -/
def heritageTypes (rec : Readers) : Parse Unit := do
  heritageType rec
  let _ ← loop (fun (_ : Unit) => do
    if ← eatPunct .comma then heritageType rec; pure (some ()) else pure none) ()

/-- A part of another module, behind the word `import`. -/
def importType (rec : Readers) : Parse Unit := do
  expectWord "import"
  expectPunct .leftParen
  match ← kind with
  | .string _ _ => advance
  | _ => reject
  if ← eatPunct .comma then
    unless ← atPunct .leftBrace do reject
    let _ ← rec (.assignment {})
  expectPunct .rightParen
  let _ ← loop (fun (_ : Unit) => do
    if ← eatPunct .dot then
      let _ ← wordText
      pure (some ())
    else pure none) ()
  typeArguments? rec

/-- An element of a tuple, which may have a name. One that stands for many cannot be left out. -/
def tupleElement (rec : Readers) : Parse Unit := do
  let many ← eatPunct .ellipsis
  let named : Parse Unit := do
    let _ ← wordText
    flawIf ((← eatPunct .question) && many)
    expectPunct .colon
    let _ ← eatPunct .ellipsis
  let _ ← attempt named
  typeOnly rec

/-- What the result of a function says about an argument: that it holds, or that it has a type. -/
def assertion (rec : Readers) : Parse Unit := do
  expectWord "asserts"
  let _ ← wordText
  if (← atWord "is") && !(← onNewLine) then
    advance
    typeOnly rec

/-- Whether a type can start at the current token. -/
def startsType : Parse Bool := do
  match ← kind with
  | .word w _ => pure (!isReserved w || ["void", "null", "this", "typeof", "new", "true", "false",
      "function", "import"].contains w)
  | .string _ _ | .number _ | .bigint _ => pure true
  | .punct .minus =>
    match (← nextToken).kind with
    | .number _ | .bigint _ => pure true
    | _ => pure false
  | .punct p => pure ([Punct.leftBrace, .leftBracket, .leftParen, .less, .bar, .amp, .backtick, .star,
      .question, .bang, .ellipsis].contains p)
  | _ => pure false

/-- A type that starts with a word. -/
def wordType (rec : Readers) (w : String) : Parse Unit := do
  match w with
  | "typeof" =>
    advance
    if ← atWord "import" then importType rec
    else entityName; typeArguments? rec
  | "import" => importType rec
  | "this" =>
    advance
    if (← atWord "is") && !(← onNewLine) then
      advance
      typeOnly rec
  | _ =>
    let next ← nextToken
    if w == "asserts" && !next.newline &&
        (isIdentifier next.kind || next.kind == .word "this" false) then assertion rec
    else
      entityName
      typeArguments? rec

/-- Whether a question mark in front of the current token stands for an unknown type. -/
def endsUnknown : Parse Bool := do
  match ← kind with
  | .punct p => pure ([Punct.comma, .rightBrace, .rightParen, .greater, .assign, .bar].contains p)
  | _ => pure false

/-- A type without operators; whether it is a tuple. -/
def primaryType (rec : Readers) : Parse Bool := do
  match ← kind with
  | .punct .leftParen => advance; typeOnly rec; expectPunct .rightParen; pure false
  | .punct .leftBracket =>
    advance
    let _ ← commaList .rightBracket (tupleElement rec)
    expectPunct .rightBracket
    pure true
  | .punct .leftBrace => objectType rec; pure false
  | .punct .backtick =>
    let _ ← templateParts false (rec (.type true))
    pure false
  | .string _ _ | .number _ | .bigint _ => advance; pure false
  | .punct .minus =>
    advance
    match ← kind with
    | .number _ | .bigint _ => advance; pure false
    | _ => reject
  | .punct .bang => advance; typeOnly rec; pure false
  | .punct .question =>
    advance
    unless ← endsUnknown do typeOnly rec
    pure false
  | .word w false => wordType rec w; pure false
  | .word _ true => entityName; typeArguments? rec; pure false
  | _ => reject

/-- A type with the marks behind it; whether it is a tuple or an array. -/
def postfixType (rec : Readers) : Parse Bool := do
  let isList ← primaryType rec
  loop (fun _ => do
    if ← onNewLine then pure none
    else match ← kind with
      | .punct .bang => advance; pure (some false)
      | .punct .question =>
        if ← looksLike (do advance; startsType) then pure none
        else advance; pure (some false)
      | .punct .leftBracket =>
        advance
        if ← eatPunct .rightBracket then pure (some true)
        else
          typeOnly rec
          expectPunct .rightBracket
          pure (some false)
      | _ => pure none) isList

/-- A name for a part of a type that is matched, and perhaps what it extends. -/
def inferredType (rec : Readers) (choices : Bool) : Parse Unit := do
  let _ ← identifierText {}
  let bound : Parse Unit := do
    expectWord "extends"
    let _ ← rec (.type false)
    if choices && (← atPunct .question) then reject
  let _ ← attempt bound

/-- A type behind any operators in front of it. Only lists may be read only. -/
def operatorType (rec : Readers) (choices : Bool) : Parse Unit := do
  let readonly ← loop (fun readonly => do
    if (← eatWord "keyof") || (← eatWord "unique") then
      flawIf readonly
      pure (some false)
    else if ← eatWord "readonly" then
      flawIf readonly
      pure (some true)
    else pure none) false
  if ← eatWord "infer" then
    flawIf readonly
    inferredType rec choices
  else
    let isList ← postfixType rec
    flawIf (readonly && !isList)

/-- Types with a separator between them and perhaps one in front. -/
def separatedTypes (mark : Punct) (item : Parse Unit) : Parse Unit := do
  let _ ← eatPunct mark
  item
  let _ ← loop (fun (_ : Unit) => do
    if ← eatPunct mark then item; pure (some ()) else pure none) ()

def unionType (rec : Readers) (choices : Bool) : Parse Unit :=
  separatedTypes .bar (separatedTypes .amp (operatorType rec choices))

/-- A type: a function type, a union, or a choice between two types. -/
def type (rec : Readers) (choices : Bool) : Parse Tree := do
  if ← startsFunctionType rec then functionType rec choices
  else
    unionType rec choices
    if choices && (← atWord "extends") && !(← onNewLine) then
      advance
      let _ ← rec (.type false)
      expectPunct .question
      typeOnly rec
      expectPunct .colon
      typeOnly rec
  holeHere

end LiveNotes.Script.Grammar
