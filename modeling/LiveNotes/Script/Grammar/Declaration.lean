import LiveNotes.Script.Grammar.Variable
import LiveNotes.Script.Scopes

/-! Declarations with what stands in front of them: variables, functions and classes, and those that
describe types, enumerate constants or hold other declarations. -/

namespace LiveNotes.Script.Grammar

open Parse

/-- What stands in front of a declaration. -/
structure DeclarationHead where
  start : Nat
  decorators : Tree
  modifiers : List Modifier := []

/-! ### Types -/

/-- A declaration of a type by the name behind a keyword, which `rest` goes on from. -/
def namedType (rec : Readers) (start : Nat) (rest : Parse Unit) : Parse Tree := do
  advance
  let name ← identifierText {}
  typeParameters rec
  rest
  finish (.erased false [⟨name, .type⟩]) start []

def interfaceDeclaration (rec : Readers) (start : Nat) : Parse Tree :=
  namedType rec start do
    if ← eatWord "extends" then heritageTypes rec
    membersInBraces rec

def typeAlias (rec : Readers) (start : Nat) : Parse Tree :=
  namedType rec start do
    expectPunct .assign
    typeOnly rec
    endStatement

/-! ### Enumerations -/

/-- The text of a template without substitutions. -/
def plainTemplate : Parse String := do
  match ← templateParts false reject with
  | [.node (.quasi raw) _ _] => pure (textOfCodePoints ((pointsOfQuasi? raw.toList).getD [])).1
  | _ => reject

/-- The name of a member: a word or text in quotes, also in brackets. -/
def enumMemberName : Parse String := do
  match ← kind with
  | .word w _ => advance; pure w
  | .string v _ => advance; pure v
  | .punct .leftBracket =>
    advance
    let name ← match ← kind with
      | .string v _ => advance; pure v
      | .punct .backtick => plainTemplate
      | _ => reject
    expectPunct .rightBracket
    pure name
  | _ => reject

def enumMember (rec : Readers) (c : Context) : Parse Tree := do
  let start ← here
  let name ← enumMemberName
  let value ← if ← eatPunct .assign then rec (.assignment c) else holeHere
  finish (.enumMember name) start [value]

def enumDeclaration (rec : Readers) (c : Context) (start : Nat) : Parse Tree := do
  expectWord "enum"
  let name ← bindingName {}
  expectPunct .leftBrace
  let members ← commaList .rightBrace (enumMember rec c)
  expectPunct .rightBrace
  finish .enumDecl start (name :: members)

/-! ### Namespaces -/

/-- The statements of a namespace in braces. -/
def namespaceBlock (rec : Readers) (c : Context) : Parse (List Tree) := do
  expectPunct .leftBrace
  let items ← bodyStatements rec c (· == .punct .rightBrace)
  expectPunct .rightBrace
  pure items

/-- Wraps statements into the namespaces that a dotted name lists, of which the last comes first. -/
def nestNamespaces (span : Span) (body : List Tree) : List Tree → List Tree
  | [] => body
  | name :: outer =>
    let inner := Tree.node .namespaceDecl span (name :: body)
    match outer with
    | [] => [inner]
    | _ => nestNamespaces span [.node .exportDecl span [inner]] outer

/-- The description of a module by its name in quotes. -/
def quotedModule (rec : Readers) (c : Context) (start : Nat) : Parse Tree := do
  advance
  if ← atPunct .leftBrace then
    let _ ← namespaceBlock rec c
  else endStatement
  finish .quotedModule start []

/-- A namespace from its keyword on. -/
def namespaceDeclaration (rec : Readers) (c : Context) (start : Nat) : Parse Tree := do
  let quotable ← atWord "module"
  advance
  match ← kind with
  | .string _ _ => if quotable then quotedModule rec c start else reject
  | _ =>
    let first ← bindingName {}
    let names ← loop (fun ns => do
      if ← eatPunct .dot then return some ((← bindingName {}) :: ns) else pure none) [first]
    let body ← namespaceBlock rec c
    match nestNamespaces ⟨start, (← get).lastStop⟩ body names with
    | [t] => pure t
    | _ => reject

/-- A block that describes what is found everywhere. -/
def globalDeclaration (rec : Readers) (c : Context) (start : Nat) : Parse Tree := do
  advance
  let _ ← namespaceBlock rec c
  finish (.erased false []) start []

/-! ### Names for parts of other modules -/

/-- A dotted name, read as accesses to a variable. -/
def entityTree : Parse Tree := do
  let start ← here
  let w ← identifierText {}
  let base ← finish (.read w) start []
  loop (fun t => do
    if ← eatPunct .dot then
      let name ← wordText
      return some (← finish (.member name false) start [t])
    else pure none) base

/-- The text in quotes that names a module. -/
def sourceText : Parse String := do
  match ← kind with
  | .string v _ => advance; pure v
  | _ => reject

/-- An import that gives a name to a module or to a part of a namespace, from its equals sign on. -/
def importEquals (start : Nat) (name : Tree) : Parse Tree := do
  expectPunct .assign
  if (← atWord "require") && (← nextToken).kind == .punct .leftParen then
    advance
    advance
    let source ← sourceText
    expectPunct .rightParen
    endStatement
    finish (.importRequire source) start [name]
  else
    let entity ← entityTree
    endStatement
    finish .importAlias start [name, entity]

/-- As `importEquals`, from the word `import` on; the word `type` in front of a name says that the name
stands for a type. -/
def namedImport (start : Nat) : Parse Tree := do
  advance
  let typeOnly ← if ← atWord "type" then pure (isIdentifier (← nextToken).kind) else pure false
  if typeOnly then advance
  let name ← bindingName {}
  let t ← importEquals start name
  match typeOnly, name.label with
  | true, .binding x => finish (.erased false [⟨x, .type⟩]) start []
  | _, _ => pure t

/-! ### Any declaration -/

/-- What a declaration that only describes something gives names to. -/
def describedBy (t : Tree) : List DeclaredName :=
  match t with
  | .node (.erased _ names) _ _ => names
  | .node .namespaceDecl _ (name :: _) => describedNames true name
  | _ => (declaredNames t).map (⟨·, .ambient⟩)

/-- A declaration that may stand in any text. -/
def valueDeclaration? (rec : Readers) (c : Context) (h : DeclarationHead) (w : String) :
    Parse (Option Tree) := do
  let start ← here
  let isDeclare (m : Modifier) : Bool := m == .declare
  match w with
  | "var" | "let" | "const" =>
    let next := (← nextToken).kind
    if w == "const" && (← typesAllowed) && next == .word "enum" false then pure none
    else
      checkModifiers isDeclare h.modifiers
      advance
      let kind := if w == "var" then VariableKind.var else if w == "let" then .letKind else .const
      return some (← variableStatement rec c start kind)
  | "class" =>
    checkModifiers (fun m => m == .declare || m == .abstract) h.modifiers
    return some (← classTree rec c .classDecl h.start h.decorators)
  | "function" =>
    checkModifiers isDeclare h.modifiers
    return some (← functionDeclaration rec c start false false)
  | "async" =>
    let next ← nextToken
    if next.newline || next.kind != .word "function" false then reject
    checkModifiers isDeclare h.modifiers
    advance
    return some (← functionDeclaration rec c start true false)
  | _ => pure none

/-- A declaration that only a text with types may hold. -/
def typedDeclaration (rec : Readers) (c : Context) (h : DeclarationHead) (w : String) :
    Parse Tree := do
  unless ← typesAllowed do reject
  checkModifiers (· == .declare) h.modifiers
  match w with
  | "const" =>
    advance
    enumDeclaration rec c h.start
  | "enum" => enumDeclaration rec c h.start
  | "interface" => interfaceDeclaration rec h.start
  | "type" => typeAlias rec h.start
  | "namespace" | "module" => namespaceDeclaration rec c h.start
  | "global" => globalDeclaration rec c h.start
  | "import" => namedImport h.start
  | _ => reject

/-- A declaration behind its modifiers. -/
def declaration (rec : Readers) (c₀ : Context) (h : DeclarationHead) : Parse Tree := do
  let declared := h.modifiers.contains .declare
  let c := { c₀ with ambient := c₀.ambient || declared }
  match ← kind with
  | .word w false =>
    flawIf (!h.decorators.isHole && w != "class")
    let t ← match ← valueDeclaration? rec c h w with
      | some t => pure t
      | none => typedDeclaration rec c h w
    pure (if declared then .node (.erased false (describedBy t)) ⟨h.start, t.span.stop⟩ [] else t)
  | _ => reject

/-! ### Looking ahead -/

/-- The answer of a look at the words in front of a declaration; `none` to look on. -/
abbrev Judged := Option Bool

/-- Looks at one of the words that may stand in front of a declaration or start it. -/
def judgeWord (w : String) : Parse Judged := do
  let next ← nextToken
  match w with
  | "var" | "let" | "const" | "function" | "class" | "enum" => pure (some true)
  | "interface" | "type" => pure (some (isIdentifier next.kind && !next.newline))
  | "module" | "namespace" =>
    let named := isIdentifier next.kind || match next.kind with
      | .string _ _ => true
      | _ => false
    pure (some (named && !next.newline))
  | "abstract" | "accessor" | "async" | "declare" | "private" | "protected" | "public" | "readonly" =>
    if next.newline then pure (some false)
    else if w == "declare" && next.kind == .word "type" false then pure (some true)
    else pure none
  | "static" => pure none
  | "global" => pure (some (isIdentifier next.kind || next.kind == .punct .leftBrace ||
      next.kind == .word "export" false))
  | "import" => pure (some (next.kind.isWord || match next.kind with
      | .string _ _ | .punct .star | .punct .leftBrace => true
      | _ => false))
  | _ => pure (some false)

/-- Whether a declaration starts with the current word, which is no keyword in every position. -/
def startsDeclaration : Parse Bool := looksLike do
  let judged ← loop (fun (judged : Judged) => do
    if judged.isSome then pure none
    else match ← kind with
      | .word w false =>
        let found ← judgeWord w
        advance
        pure (some found)
      | _ => pure (some (some false))) none
  pure (judged.getD false)

end LiveNotes.Script.Grammar
