import LiveNotes.Script.Grammar.Function

/-! Classes and their members. -/

namespace LiveNotes.Script.Grammar

open Parse

/-! ### Members -/

/-- What stands in front of a member: where it starts, its decorators and modifiers, and whether only
types are declared around it. -/
structure MemberHead where
  start : Nat
  decorators : Tree
  modifiers : List Modifier
  ambient : Bool

namespace MemberHead

def isStatic (h : MemberHead) : Bool := h.modifiers.contains .static

def isAbstract (h : MemberHead) : Bool := h.modifiers.contains .abstract

def isAsync (h : MemberHead) : Bool := h.modifiers.contains .async

def isDecorated (h : MemberHead) : Bool := !h.decorators.isHole

end MemberHead

/-- Whether a method may have the modifier; an accessor never waits. -/
def fitsMethod (waits : Bool) : Modifier → Bool
  | .visibility _ | .static | .abstract | .override => true
  | .async => waits
  | _ => false

/-- Whether a field may have the modifier; one with an accessor can be changed. -/
def fitsField (hasAccessor : Bool) : Modifier → Bool
  | .visibility _ | .static | .abstract | .override => true
  | .readonly | .declare => !hasAccessor
  | .accessor => true
  | _ => false

/-- A member that leaves no trace. -/
def describedMember (start : Nat) : Parse Tree := finish (.erased false []) start []

/-- The text of a key that is a word or a string. -/
def keyText? (key : Tree) : Option String :=
  match key.label with
  | .name w | .string w _ => some w
  | _ => none

/-- The key of a member: private names need no modifier that restricts or describes them, and some
names are taken. -/
def memberKey (rec : Readers) (c : Context) (h : MemberHead) : Parse (Tree × Bool) := do
  let (key, computed) ← propertyKey rec c
  match key.label with
  | .privateName w =>
    flawIf (w == "constructor" || h.modifiers.any fun m =>
      m.isVisibility || m == .declare || m == .abstract)
  | _ => flawIf (h.isStatic && !computed && keyText? key == some "prototype")
  pure (key, computed)

/-- Moves over the word that makes an accessor of the key behind it, if there is one. -/
def accessorKind? : Parse (Option MethodKind) := do
  if ← accessorWord "get" then pure (some .getter)
  else if ← accessorWord "set" then pure (some .setter)
  else pure none

/-- Whether the parameters and, where types are stated, the missing default fit an accessor. -/
def fitsAccessor (types : Bool) (kind : MethodKind) (params : List Tree) : Bool :=
  match kind with
  | .getter => params.isEmpty
  | .setter => isSetter types params
  | _ => true

/-- Whether the result type behind the parameters, if one follows, is stated for a setter or
constructor, which have none. -/
def statesResult (rec : Readers) : Parse Bool := do
  if ← typesAllowed then
    looksLike do
      typeParameters rec
      let _ ← parameters rec {} .plain
      atPunct .colon
  else pure false

/-- A method or accessor from its parameters on. -/
def method (rec : Readers) (h : MemberHead) (kind : MethodKind) (key : Tree) (computed : Bool)
    (isGenerator : Bool) : Parse Tree := do
  let waits := kind == .method
  checkModifiers (fitsMethod waits) h.modifiers
  let types ← typesAllowed
  if kind == .setter then flawIf (← statesResult rec)
  let isConstructor := !h.isStatic && !computed && keyText? key == some "constructor"
  flawIf (isConstructor && (kind != .method || h.isAsync || isGenerator))
  match ← methodFunction rec h.ambient .plain h.isAsync isGenerator with
  | none =>
    flawIf h.isDecorated
    describedMember h.start
  | some f =>
    flawIf (h.isAbstract || !(fitsAccessor types kind (paramsOf f)))
    finish (.method kind h.isStatic computed) h.start [key, f, h.decorators]

/-- The constructor from its parameters on. -/
def constructorMember (rec : Readers) (h : MemberHead) (key : Tree) : Parse Tree := do
  checkModifiers Modifier.isVisibility h.modifiers
  flawIf (h.isDecorated || (← atPunct .less) || (← statesResult rec))
  match ← methodFunction rec h.ambient .constructor false false with
  | none => describedMember h.start
  | some f => finish (.method .constructor false false) h.start [key, f, h.decorators]

/-- A field from behind its key. -/
def fieldMember (rec : Readers) (h : MemberHead) (key : Tree) (computed : Bool) : Parse Tree := do
  let hasAccessor := h.modifiers.contains .accessor
  checkModifiers (fitsField hasAccessor) h.modifiers
  if (← typesAllowed) && (← atPunct .bang) && !(← onNewLine) then advance
  typeAnnotation rec
  let value ← if ← eatPunct .assign then expression rec { ambient := h.ambient } else holeHere
  endStatement
  flawIf (!computed && keyText? key == some "constructor")
  flawIf (h.isAbstract && !value.isHole)
  if h.isAbstract || h.modifiers.contains .declare then describedMember h.start
  else
    let label := if hasAccessor then Label.accessor h.isStatic computed
      else .field h.isStatic computed
    finish label h.start [key, value, h.decorators]

/-- A field, method or accessor from its key on. -/
def keyedMember (rec : Readers) (c : Context) (h : MemberHead) : Parse Tree := do
  if let some kind ← accessorKind? then
    let (key, computed) ← memberKey rec c h
    return ← method rec h kind key computed false
  let star ← eatPunct .star
  let (key, computed) ← memberKey rec c h
  let types ← typesAllowed
  let called := (← atPunct .leftParen) || (types && (← atPunct .less))
  if called && !star && !h.isStatic && !computed && keyText? key == some "constructor" then
    constructorMember rec h key
  else
    let optional ← if types then eatPunct .question else pure false
    let called := called || (optional && ((← atPunct .leftParen) || (← atPunct .less)))
    if star || called then method rec h .method key computed star
    else fieldMember rec h key computed

/-- The block of a class behind the word `static`. -/
def staticBlock (rec : Readers) (h : MemberHead) : Parse Tree := do
  flawIf (h.isDecorated || !h.modifiers.isEmpty)
  expectWord "static"
  expectPunct .leftBrace
  let ss ← statementsInBraces rec { awaits := true }
  expectPunct .rightBrace
  finish .staticBlock h.start ss

def classMember (rec : Readers) (c : Context) : Parse (Option Tree) := do
  let start ← here
  let ds ← decorators rec c
  let ms ← modifiers .member
  let h : MemberHead := ⟨start, ds, ms, c.ambient || ms.contains .declare⟩
  if (← atWord "static") && (← nextToken).kind == .punct .leftBrace then
    return some (← staticBlock rec h)
  if (← typesAllowed) && (← atPunct .leftBracket) && (← opensIndexSignature) then
    checkModifiers (fun m => m == .static || m == .readonly) ms
    flawIf h.isDecorated
    indexSignature rec
    endMember
    return some (← describedMember start)
  return some (← keyedMember rec c h)

/-! ### Classes -/

def classBody (rec : Readers) (c : Context) : Parse Tree := do
  let start ← here
  expectPunct .leftBrace
  let members ← many do
    let _ ← many do if ← eatPunct .semicolon then pure (some ()) else pure none
    if ← atPunct .rightBrace then pure none else classMember rec c
  expectPunct .rightBrace
  finish .classBody start members

/-- What a class extends, with the arguments that make it less generic. -/
def superclass (rec : Readers) (c : Context) : Parse Tree := do
  if ← eatWord "extends" then
    let t ← rec (.access c.inside true)
    if ← typesAllowed then typeArguments? rec
    match t with
    | .node (.typed .arguments) _ [e] => pure e
    | _ => pure t
  else holeHere

/-- A class from the word `class` on, with the decorators in front of it. It may lack a name. -/
def classTree (rec : Readers) (c : Context) (label : Label) (start : Nat) (ds : Tree) :
    Parse Tree := do
  expectWord "class"
  let types ← typesAllowed
  let named := isIdentifier (← kind) && !(types && (← atWord "implements"))
  let name ← if named then bindingName c else holeHere
  if types then typeParameters rec
  let super ← superclass rec c
  if types then
    if ← eatWord "implements" then heritageTypes rec
  let body ← classBody rec c
  finish label start [name, super, body, ds]

end LiveNotes.Script.Grammar
