import LiveNotes.Error
import LiveNotes.Script.Grammar.Program
import LiveNotes.Text.Bytes
import LiveNotes.Text.Split

/-! What a module imports and exports, and where its text has to change for that. -/

namespace LiveNotes.Bundle

open Script

/-- A name of another module and the name it has here; `*` stands for the module as a whole. -/
structure ImportedName where
  imported : String
  here : String
  deriving DecidableEq, Repr

structure Import where
  specifier : String
  /-- Whether it is a call that imports when it is made. -/
  dynamic : Bool
  names : List ImportedName
  deriving DecidableEq, Repr

inductive LinkKind where
  | importNames (specifier : String) (names : List ImportedName)
  /-- Names of another module under the names they are exported by. -/
  | reExport (specifier : String) (names : List ImportedName)
  | exportStar (specifier : String) (asName : Option String)
  /-- The words in front of an exported expression, and where a semicolon is missing behind it. -/
  | defaultExpr (semicolonAt : Option Nat)
  | remove
  | dynamicImport (specifier : String)
  deriving DecidableEq, Repr

/-- A part of a module's text that is replaced when it is linked. -/
structure LinkItem where
  span : Span
  kind : LinkKind
  deriving DecidableEq, Repr

structure Analysis where
  imports : List Import := []
  items : List LinkItem := []
  /-- Exported names and the expressions that give their values. -/
  exports : List (String × String) := []
  deriving DecidableEq, Repr, Inhabited

/-- The variable for an exported expression. -/
def defaultBinding : String := "__default"

def Analysis.append (a b : Analysis) : Analysis :=
  ⟨a.imports ++ b.imports, a.items ++ b.items, a.exports ++ b.exports⟩

instance : Append Analysis := ⟨Analysis.append⟩

/-- An item that is an import as well. -/
def linked (span : Span) (specifier : String) (names : List ImportedName) (kind : LinkKind) :
    Analysis :=
  { imports := [⟨specifier, false, names⟩], items := [⟨span, kind⟩] }

def removed (start stop : Nat) : Analysis := { items := [⟨⟨start, stop⟩, .remove⟩] }

/-- The name that a part of an import binds. -/
def importName? (t : Tree) : Option ImportedName :=
  match t.label with
  | .importName imported x _ => some ⟨imported.text, x⟩
  | .importDefault x => some ⟨"default", x⟩
  | .importAll x => some ⟨"*", x⟩
  | _ => none

def exportName? (t : Tree) : Option ImportedName :=
  match t.label with
  | .exportName n e _ => some ⟨n.text, e.text⟩
  | _ => none

/-- Whether the text up to byte `stop` ends in a semicolon, but for white space. -/
def isTerminated (source : List Char) (stop : Nat) : Bool :=
  (Text.dropEnd Text.isWhiteSpace (Text.splitAtByte stop source).1).getLast? == some ';'

/-- The analysis of an export that stands for a value of its own. -/
def defaultExport (source : List Char) (span : Span) (d : Tree) : Analysis :=
  match declaredNames d with
  | name :: _ => removed span.start d.span.start ++ { exports := [("default", name)] }
  | [] =>
    let semicolon := if isTerminated source span.stop then none else some span.stop
    { items := [⟨⟨span.start, d.span.start⟩, .defaultExpr semicolon⟩]
      exports := [("default", defaultBinding)] }

/-- What an item of a module imports and exports. -/
def itemAnalysis (source : List Char) : Tree → Analysis
  | .node (.importDecl _ specifier _ _) span ks =>
    let names := ks.filterMap importName?
    linked span specifier names (.importNames specifier names)
  | .node (.exportList (some specifier) _) span ks =>
    let names := ks.filterMap exportName?
    linked span specifier names (.reExport specifier names)
  | .node (.exportList none _) span ks =>
    removed span.start span.stop ++
      { exports := (ks.filterMap exportName?).map fun n => (n.here, n.imported) }
  | .node .exportDecl span [d] =>
    removed span.start d.span.start ++ { exports := (declaredNames d).map fun x => (x, x) }
  | .node .exportDefault span [d] => defaultExport source span d
  | .node (.exportAll asName specifier _) span _ =>
    let name := asName.map (·.text)
    linked span specifier [⟨"*", name.getD "*"⟩] (.exportStar specifier name)
  | _ => {}

mutual

/-- The calls in a tree that import a module with a fixed name. -/
def dynamicImports : Tree → List (Span × String)
  | .node label span ks =>
    (match label, ks with
      | .importCall _, .node (.string specifier _) _ _ :: _ => [(span, specifier)]
      | _, _ => []) ++ dynamicImportsAll ks

def dynamicImportsAll : List Tree → List (Span × String)
  | [] => []
  | t :: ts => dynamicImports t ++ dynamicImportsAll ts

end

def dynamicAnalysis (calls : List (Span × String)) : Analysis :=
  { imports := calls.map fun (_, specifier) => ⟨specifier, true, []⟩
    items := calls.map fun (span, specifier) => ⟨span, .dynamicImport specifier⟩ }

/-- What the module with the given code imports and exports. -/
def analyze (code id : String) : Except BundleError Analysis :=
  match parse .plainModule code with
  | none => .error (.parse ["Unexpected token"] id)
  | some script =>
    let source := code.toList
    .ok (script.tree.kids.foldl (fun a t => a ++ itemAnalysis source t) {} ++
      dynamicAnalysis (dynamicImports script.tree))

end LiveNotes.Bundle
