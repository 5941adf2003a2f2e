import LiveNotes.Script.Grammar.Declaration

/-! Imports, and what they have in common with exports: names on the far side of a module boundary
and the attributes of a module. -/

namespace LiveNotes.Script.Grammar

open Parse

/-! ### Sources -/

def attributeEntry : Parse (ExportedName × String) := do
  let key ← match ← kind with
    | .word w _ => advance; pure ⟨w, false⟩
    | .string v _ => advance; pure ⟨v, true⟩
    | _ => reject
  expectPunct .colon
  return (key, ← sourceText)

def hasDuplicates : List String → Bool
  | [] => false
  | x :: xs => xs.contains x || hasDuplicates xs

/-- The word that attributes start with, if they do here. -/
def attributesWord? : Parse (Option String) := do
  let t ← token
  match t.kind with
  | .word "with" false => pure (some "with")
  | .word "assert" false => pure (if t.newline then none else some "assert")
  | _ => pure none

/-- The attributes behind a module's source. -/
def importAttributes : Parse (List Tree) := do
  let start ← here
  match ← attributesWord? with
  | none => pure []
  | some w =>
    advance
    expectPunct .leftBrace
    let entries ← commaList .rightBrace attributeEntry
    expectPunct .rightBrace
    flawIf (hasDuplicates (entries.map (·.1.text)))
    return [← finish (.importAttributes w entries) start []]

/-! ### Names -/

/-- A name on the far side of a module boundary, which is a whole text. -/
def exportedName : Parse ExportedName := do
  match ← kind with
  | .word w _ => advance; pure ⟨w, false⟩
  | .string v surrogates =>
    flawIf surrogates
    advance
    pure ⟨v, true⟩
  | _ => reject

/-- Whether a name on the far side of a module boundary starts here. -/
def atExportedName : Parse Bool := do
  match ← kind with
  | .word _ _ | .string _ _ => pure true
  | _ => pure false

/-- A name in a list of imports or exports, the name that it goes by on the other side, and whether
it stands for a type. -/
structure Specifier where
  name : ExportedName
  other : ExportedName
  typeOnly : Bool := false

/-- The name behind the word `as`, or else `name` once more. -/
def renamed (name : ExportedName) (typeOnly : Bool) : Parse Specifier := do
  if ← eatWord "as" then return ⟨name, ← exportedName, typeOnly⟩
  else return ⟨name, name, typeOnly⟩

/-- A specifier behind the words `type as`, which may be names or mean what they say. -/
def typeAsSpecifier (typeName asName : ExportedName) : Parse Specifier := do
  if ← eatWord "as" then
    if ← atExportedName then return ⟨asName, ← exportedName, true⟩
    else return ⟨typeName, asName, false⟩
  else if ← atExportedName then return ⟨typeName, ← exportedName, false⟩
  else return ⟨asName, asName, true⟩

/-- A part of a list of imports or exports. In a list of types no part says so again. -/
def specifier (inTypes : Bool) : Parse Specifier := do
  let marked := (← typesAllowed) && (← atWord "type")
  let first ← exportedName
  let s ← if !marked then renamed first false
    else if ← atWord "as" then typeAsSpecifier first (← exportedName)
    else if ← atExportedName then renamed (← exportedName) true
    else pure ⟨first, first, false⟩
  flawIf (inTypes && s.typeOnly)
  pure s

/-! ### Imports -/

/-- Whether the name of an import can name a variable. -/
def bindsVariable (n : ExportedName) : Bool := !n.quoted && !isReserved n.text

def importName (c : Context) (inTypes : Bool) : Parse Tree := do
  let start ← here
  let s ← specifier inTypes
  unless bindsVariable s.other do reject
  useName c s.other.text
  finish (.importName s.name s.other.text s.typeOnly) start []

def importAll (c : Context) : Parse Tree := do
  let start ← here
  expectPunct .star
  expectWord "as"
  let name ← identifierText c
  finish (.importAll name) start []

/-- All exports of a module under one name, or a list of them. -/
def importNames (c : Context) (inTypes : Bool) : Parse (List Tree) := do
  if ← atPunct .star then pure [← importAll c]
  else
    expectPunct .leftBrace
    let names ← commaList .rightBrace (importName c inTypes)
    expectPunct .rightBrace
    pure names

/-- What the words behind `import` say of it. -/
structure ImportHead where
  phase : ImportPhase := .evaluation
  typeOnly : Bool := false

/-- The rest of an import behind its specifiers. -/
def importFrom (start : Nat) (h : ImportHead) (specifiers : List Tree) : Parse Tree := do
  expectWord "from"
  let source ← sourceText
  let attributes ← importAttributes
  endStatement
  finish (.importDecl h.phase source false h.typeOnly) start (specifiers ++ attributes)

/-- Whether a word behind `import` says how to import, judged by the tokens behind it, and is not the
name that the import binds. -/
def saysHow (afterFrom : TokenKind → Bool) (mayFollow : TokenKind → Bool) : Parse Bool := looksLike do
  advance
  match ← kind with
  | .word "from" false => return afterFrom (← nextToken).kind
  | k => pure (mayFollow k)

/-- Moves over the word that says how to import, if there is one. -/
def importHead : Parse ImportHead := do
  let isFrom (k : TokenKind) : Bool := k == .word "from" false
  let opensNames (k : TokenKind) : Bool := k == .punct .leftBrace || k == .punct .star
  let typeOnly ← if (← typesAllowed) && (← atWord "type") then
      saysHow (fun k => isFrom k || k == .punct .assign) (fun k => isIdentifier k || opensNames k)
    else pure false
  let source ← if ← atWord "source" then saysHow isFrom isIdentifier else pure false
  let defer ← if ← atWord "defer" then saysHow (fun _ => false) (· == .punct .star) else pure false
  if typeOnly || source || defer then advance
  pure { typeOnly, phase := if source then .source else if defer then .defer else .evaluation }

/-- The part of an import that binds names, and its rest. -/
def importClause (c : Context) (start : Nat) (h : ImportHead) : Parse Tree := do
  if (← atPunct .star) || (← atPunct .leftBrace) then
    importFrom start h (← importNames c h.typeOnly)
  else
    let nameStart ← here
    let w ← identifierText c
    if (← typesAllowed) && (← atPunct .assign) then
      let t ← importEquals start (← finish (.binding w) nameStart [])
      if h.typeOnly then finish (.erased false [⟨w, .type⟩]) start [] else pure t
    else
      let name ← finish (.importDefault w) nameStart []
      if ← eatPunct .comma then
        flawIf (h.typeOnly || h.phase != .evaluation)
        importFrom start h (name :: (← importNames c h.typeOnly))
      else importFrom start h [name]

def importDeclaration (c : Context) : Parse Tree := do
  let start ← here
  expectWord "import"
  match ← kind with
  | .string v _ =>
    advance
    let attributes ← importAttributes
    endStatement
    finish (.importDecl .evaluation v true false) start attributes
  | _ => importClause c start (← importHead)

end LiveNotes.Script.Grammar
