import LiveNotes.Script.Grammar.Import

/-! Exports: lists of names, all names of another module, a default, and declarations. -/

namespace LiveNotes.Script.Grammar

open Parse

/-! ### Lists -/

def exportName (inTypes : Bool) : Parse Tree := do
  let start ← here
  let s ← specifier inTypes
  finish (.exportName s.name s.other s.typeOnly) start []

/-- The words that name no variable of a module, though some other text may use them so. -/
def strictWords : List String :=
  ["implements", "interface", "let", "package", "private", "protected", "public", "static", "yield",
   "await"]

/-- Whether a name can stand for a variable of the module. -/
def isLocalName : Tree → Bool
  | .node (.exportName n _ _) _ _ => bindsVariable n && !strictWords.contains n.text
  | _ => true

def exportList (start : Nat) (typeOnly : Bool) : Parse Tree := do
  expectPunct .leftBrace
  let names ← commaList .rightBrace (exportName typeOnly)
  expectPunct .rightBrace
  let source? ← if ← eatWord "from" then
      match ← kind with
      | .string v _ => advance; pure (some v)
      | _ => pure none
    else pure none
  let attributes ← if source?.isSome then importAttributes else pure []
  flawIf (source?.isNone && !(names.all isLocalName))
  endStatement
  finish (.exportList source? typeOnly) start (names ++ attributes)

def exportAll (start : Nat) (typeOnly : Bool) : Parse Tree := do
  expectPunct .star
  let asName ← if ← eatWord "as" then some <$> exportedName else pure none
  expectWord "from"
  let source ← sourceText
  let attributes ← importAttributes
  endStatement
  finish (.exportAll asName source typeOnly) start attributes

/-! ### Defaults and declarations -/

/-- Decorators in front of what is exported; they stand before or behind the word `export`. -/
def laterDecorators (rec : Readers) (c : Context) (ds : Tree) : Parse Tree := do
  if ← atPunct .at then
    flawIf !ds.isHole
    decorators rec c
  else pure ds

/-- A declaration that may be a default, from the word `w` on, if it is one. A class starts at `first`,
where decorators may stand in front of it. -/
def defaultDeclaration? (rec : Readers) (c : Context) (first : Nat) (ds : Tree) (w : String) :
    Parse (Option Tree) := do
  let start ← here
  let types ← typesAllowed
  let next ← nextToken
  match w with
  | "class" => return some (← classTree rec c .classDecl first ds)
  | "function" => return some (← functionDeclaration rec c start false true)
  | "async" =>
    if next.kind == .word "function" false && !next.newline then
      advance
      return some (← functionDeclaration rec c start true true)
    else pure none
  | "abstract" =>
    if types && next.kind == .word "class" false && !next.newline then
      advance
      return some (← classTree rec c .classDecl first ds)
    else pure none
  | "interface" =>
    if types && isIdentifier next.kind && !next.newline then
      return some (← interfaceDeclaration rec start)
    else pure none
  | _ => pure none

def exportDefault (rec : Readers) (c : Context) (start : Nat) (ds : Tree) : Parse Tree := do
  expectWord "default"
  let isPure := (← token).pureFunction
  let first ← here
  let ds ← laterDecorators rec c ds
  let declared? ← match ← kind with
    | .word w false => defaultDeclaration? rec c first ds w
    | _ => pure none
  let value ← match declared? with
    | some t => pure t
    | none =>
      let e ← rec (.assignment c)
      endStatement
      pure e
  flawIf (!ds.isHole && value.label != .classDecl)
  finish .exportDefault start [if isPure then markPureFunction value else value]

/-- A declaration behind the word `export`. A class starts at the decorators there. -/
def exportedDeclaration (rec : Readers) (c : Context) (start : Nat) (ds : Tree) : Parse Tree := do
  let first ← here
  let ds ← laterDecorators rec c ds
  let ms ← if ← typesAllowed then modifiers .declaration else pure []
  let t ← declaration rec c ⟨first, ds, ms⟩
  match t.label with
  | .erased _ names => return .node (.erased true names) ⟨start, t.span.stop⟩ []
  | _ => return .node .exportDecl ⟨start, t.span.stop⟩ [t]

/-- The name for all exports of a module that scripts use which are no modules. -/
def exportAsNamespace (start : Nat) : Parse Tree := do
  expectWord "as"
  expectWord "namespace"
  let _ ← identifierText {}
  endStatement
  finish .exportAsNamespace start []

def exportAssign (rec : Readers) (c : Context) (start : Nat) : Parse Tree := do
  expectPunct .assign
  let e ← expression rec c
  endStatement
  finish .exportAssign start [e]

/-- A list or declaration of types. -/
def exportedTypes (rec : Readers) (c : Context) (start : Nat) : Parse Tree := do
  match (← nextToken).kind with
  | .punct .leftBrace => advance; exportList start true
  | .punct .star => advance; exportAll start true
  | _ => exportedDeclaration rec c start (.hole start)

/-- An export, with the decorators in front of it if it is one of a class. -/
def exportDeclaration (rec : Readers) (c : Context) (ds : Tree) : Parse Tree := do
  let start ← here
  expectWord "export"
  let types ← typesAllowed
  match ← kind with
  | .word "default" false => exportDefault rec c start ds
  | k =>
    let t ← match k with
      | .punct .leftBrace => exportList start false
      | .punct .star => exportAll start false
      | .punct .assign => if types then exportAssign rec c start else reject
      | .word "as" false => if types then exportAsNamespace start else reject
      | .word "type" false => if types then exportedTypes rec c start else reject
      | _ => exportedDeclaration rec c start ds
    match t.label with
    | .exportList .. | .exportAll .. | .exportAssign => flawIf !ds.isHole
    | _ => pure ()
    pure t

end LiveNotes.Script.Grammar
