import LiveNotes.Script.Grammar.Type

/-! Functions: their parameters, bodies and the directives in front of a body. -/

namespace LiveNotes.Script.Grammar

open Parse

/-! ### Statements in braces -/

/-- The characters of the first `n` bytes. -/
def takeBytes (n : Nat) : List Char → List Char
  | [] => []
  | c :: rest => if n == 0 then [] else c :: takeBytes (n - c.utf8Size) rest

/-- The directive that a statement is, if it is a string alone; `text` starts where the statement
does. -/
def directive? (text : List Char) (t : Tree) : Option Tree :=
  match t with
  | .node .expressionStatement span [.node (.string _ _) s _] =>
    let raw := takeBytes (s.stop - s.start - 2) (text.drop 1)
    some (.node (.directive (String.ofList raw)) span [])
  | _ => none

/-- A statement and, as long as only directives came before it, whether it is one. -/
def bodyStatement (rec : Readers) (c : Context) (inFront : Bool) : Parse (Tree × Bool) := do
  let text := (← get).start.rest
  let t ← rec (.statement c false)
  match inFront, directive? text t with
  | true, some d => return (d, true)
  | _, _ => return (t, false)

/-- One more statement in front of those found so far, unless a token that satisfies `closes` is here. -/
def bodyStep (rec : Readers) (c : Context) (closes : TokenKind → Bool) :
    List Tree × Bool → Parse (Option (List Tree × Bool))
  | (found, inFront) => do
    if closes (← kind) then pure none
    else
      let (t, isDirective) ← bodyStatement rec c inFront
      pure (some (t :: found, isDirective))

/-- Directives and then statements, up to a token that satisfies `closes`. -/
def bodyStatements (rec : Readers) (c : Context) (closes : TokenKind → Bool) : Parse (List Tree) := do
  let (found, _) ← loop (bodyStep rec c closes) ([], true)
  pure found.reverse

/-- Statements up to a closing brace, which is not consumed. -/
def statementsInBraces (rec : Readers) (c : Context) : Parse (List Tree) :=
  many do
    if ← atPunct .rightBrace then pure none
    else return some (← rec (.statement c false))

/-! ### Functions -/

/-- The context of the inside of a function. -/
def insideFunction (isAsync isGenerator : Bool) : Context :=
  { awaits := isAsync, yields := isGenerator, returns := true }

def functionBody (rec : Readers) (c : Context) : Parse Tree := do
  let start ← here
  expectPunct .leftBrace
  let ss ← bodyStatements rec c (· == .punct .rightBrace)
  expectPunct .rightBrace
  finish .functionBody start ss

/-- Parameters, result type and body of a function. The body is missing when the function only
states its type, which is all that it may do where only types are declared. -/
def functionRest (rec : Readers) (ambient : Bool) (owner : ParameterOwner)
    (isAsync isGenerator : Bool) : Parse (Tree × Option Tree) := do
  if ← typesAllowed then typeParameters rec
  let c := insideFunction isAsync isGenerator
  let ps ← parameters rec { c with returns := false, ambient } owner
  let _ ← resultAnnotation rec
  if (← typesAllowed) && !(← atPunct .leftBrace) && (← canEndStatement) then
    let _ ← eatPunct .semicolon
    return (ps, none)
  else
    flawIf ambient
    let body ← functionBody rec c
    return (ps, some body)

/-- A function expression from the word `function` on. -/
def functionExpression (rec : Readers) (start : Nat) (isAsync : Bool) : Parse Tree := do
  expectWord "function"
  let isGenerator ← eatPunct .star
  let name ← if (← kind).isWord then bindingName { awaits := isAsync, yields := isGenerator }
    else holeHere
  let (ps, body) ← functionRest rec false .plain isAsync isGenerator
  match body with
  | none => reject
  | some b => finish (.function { isAsync, isGenerator }) start [name, ps, b]

/-- What a function or class that only describes something declares. -/
def describedNames (ambient : Bool) (name : Tree) : List DeclaredName :=
  match name.label with
  | .binding x => [⟨x, if ambient then .ambient else .value⟩]
  | _ => []

/-- A function declaration from the word `function` on. Only an exported default may lack a name. -/
def functionDeclaration (rec : Readers) (c : Context) (start : Nat) (isAsync nameless : Bool) :
    Parse Tree := do
  expectWord "function"
  let isGenerator ← eatPunct .star
  let name ← if nameless && ((← atPunct .leftParen) || (← atPunct .less)) then holeHere
    else bindingName c
  let (ps, body) ← functionRest rec c.ambient .plain isAsync isGenerator
  match body with
  | none => finish (.erased false (describedNames c.ambient name)) start []
  | some b => finish (.functionDecl { isAsync, isGenerator }) start [name, ps, b]

/-- A method from its parameters on; `none` when it has no body. -/
def methodFunction (rec : Readers) (ambient : Bool) (owner : ParameterOwner)
    (isAsync isGenerator : Bool) : Parse (Option Tree) := do
  let start ← here
  let (ps, body) ← functionRest rec ambient owner isAsync isGenerator
  match body with
  | none => pure none
  | some b => return some (← finish (.function { isAsync, isGenerator }) start [.hole start, ps, b])

/-! ### Accessors -/

/-- Whether some parameter of a list takes all further arguments. -/
def hasRest (params : List Tree) : Bool := params.any (·.label == .rest)

/-- Whether a function sets a property: it takes one argument, which has no default where types are
stated. -/
def isSetter (types : Bool) (params : List Tree) : Bool :=
  params.length == 1 && !hasRest params &&
    !(types && params.any (·.label == .withDefault))

/-- The parameters of a method's function, without their decorators. -/
def paramsOf (f : Tree) : List Tree :=
  (((f.kids.drop 1).head?.map Tree.kids).getD []).map undecorated

end LiveNotes.Script.Grammar
