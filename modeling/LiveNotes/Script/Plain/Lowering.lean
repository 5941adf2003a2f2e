import LiveNotes.Script.Character
import LiveNotes.Script.Plain.Constant
import LiveNotes.Script.Tree

/-! What is kept in mind while a script is turned into one without types and markup, names for
variables that the script does not hold yet, and how new parts of a tree are made. -/

namespace LiveNotes.Script.Plain

mutual

/-- The names of all variables in a tree. -/
def namesIn : Tree → List String
  | .node label _ ks =>
    match label with
    | .read x | .target x | .binding x | .importDefault x | .importAll x | .importName _ x _ =>
      x :: namesInAll ks
    | _ => namesInAll ks

def namesInAll : List Tree → List String
  | [] => []
  | t :: ts => namesIn t ++ namesInAll ts

end

/-- The first of `_base`, `_base2`, `_base3`, .. that is not among `used`, trying `fuel` of them. -/
def firstFree (base : String) (used : List String) : Nat → Nat → String
  | 0, n => "_" ++ base ++ toString n
  | fuel + 1, n =>
    let name := "_" ++ base ++ (if n < 2 then "" else toString n)
    if used.contains name then firstFree base used fuel (n + 1) else name

/-- A name for a variable that stands for `word`. -/
def freshName (word : String) (used : List String) : String :=
  let base := (word.toList.dropWhile (· == '_')).reverse.dropWhile isDecimalDigit
  firstFree (String.ofList base.reverse) used (used.length + 1) 1

/-- The members of an enumeration and the constants that they are, if they are; the latest come
first. -/
abbrev Members := List (String × Option Constant)

structure Memory where
  /-- The names of variables so far. -/
  used : List String
  /-- Whether something was found that has no plain form. -/
  failed : Bool := false
  isModule : Bool
  /-- The enumerations so far. -/
  enums : List (String × Members) := []
  /-- The helpers of markup that were used and the variables that hold them, in order. -/
  helpers : List (String × String) := []
  deriving Repr

abbrev Lowering := StateM Memory

def fail : Lowering Unit := modify ({ · with failed := true })

/-- A new variable named for `word`. -/
def fresh (word : String) : Lowering String := do
  let m ← get
  let name := freshName word m.used
  set { m with used := name :: m.used }
  pure name

/-! ### New nodes -/

def new (label : Label) (kids : List Tree) : Tree := .node label ⟨0, 0⟩ kids

def readOf (x : String) : Tree := new (.read x) []

def bindingOf (x : String) : Tree := new (.binding x) []

def targetOf (x : String) : Tree := new (.target x) []

def textOf (s : String) : Tree := new (.string s false) []

def noTree : Tree := .hole 0

/-- The access to a property of a variable. -/
def propertyOf (object name : String) : Tree :=
  if isIdentifierName name then new (.member name false) [readOf object]
  else new (.index false) [readOf object, textOf name]

def assignOf (target value : Tree) : Tree := new (.assign .plain) [target, value]

def statementOf (span : Span) (e : Tree) : Tree := .node .expressionStatement span [e]

def orOf (a b : Tree) : Tree := new (.logical .or) [a, b]

/-- The declaration of one variable. -/
def variableOf (kind : VariableKind) (span : Span) (name : String) (value : Tree) : Tree :=
  .node (.variableList kind) span [new .declarator [bindingOf name, value]]

/-- A function of one parameter. -/
def functionOf (param : String) (body : List Tree) : Tree :=
  new (.function {}) [noTree, new .params [bindingOf param], new .functionBody body]

end LiveNotes.Script.Plain
