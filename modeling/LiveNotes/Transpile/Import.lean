import LiveNotes.Script.Character
import LiveNotes.Script.Tree
import LiveNotes.Text.Quoted
import LiveNotes.Text.Split
import LiveNotes.Vault.Path

/-! The names that generated code finds its surroundings by, and imports as reads from the registry of
modules. -/

namespace LiveNotes

structure RuntimeGlobals where
  /-- The expression for the registry of modules. -/
  moduleRegistry : String := "window._livedocModules"
  /-- The expression for the function that finds a scope by its id. -/
  scopeLookup : String := "window._livedocGetScope"
  /-- The package with the runtime of markup. -/
  markupSource : String := "react"
  /-- The names that always stand for the page around the code. -/
  hostGlobals : List String :=
    ["window", "self", "globalThis", "document", "console", "app", "_jsx", "_jsxs", "_Fragment"]
  deriving DecidableEq, Repr, Inhabited

namespace RuntimeGlobals

def isHostGlobal (g : RuntimeGlobals) (name : String) : Bool := g.hostGlobals.contains name

/-- Whether `source` is the runtime of markup. -/
def isMarkupRuntime (g : RuntimeGlobals) (source : String) : Bool :=
  match Text.dropPrefix? g.markupSource source with
  | some rest => rest == "/jsx-runtime" || rest == "/jsx-dev-runtime"
  | none => false

end RuntimeGlobals

end LiveNotes

namespace LiveNotes.Transpile

open Script Text

/-- The property of an object pattern that gives `imported` the name `local_`. -/
def destructureProperty (imported local_ : String) : String :=
  if !isIdentifierName imported then quoted imported ++ ": " ++ local_
  else if imported == local_ then local_
  else imported ++ ": " ++ local_

/-- The expression that reads a module from the registry. -/
def registryAccess (registry source : String) : String :=
  registry ++ "[" ++ quoted source ++ "]"

/-- The property for a part of an import, but for one that names the whole module. -/
def importProperty (t : Tree) : Option String :=
  match t.label with
  | .importName imported x _ => some (destructureProperty imported.text x)
  | .importDefault x => some ("default: " ++ x)
  | _ => none

/-- The name that a part of an import gives the whole module. -/
def importWhole (t : Tree) : Option String :=
  match t.label with
  | .importAll x => some x
  | _ => none

/-- The statements for an import with the given parts. -/
def registryRead (registry source : String) (parts : List Tree) : String :=
  let module := registryAccess registry source
  let properties := parts.filterMap importProperty
  let names := parts.filterMap importWhole
  let first := if properties.isEmpty then []
    else ["const \x7b " ++ ", ".intercalate properties ++ " \x7d = " ++ module ++ ";"]
  let others := names.map fun x => "const " ++ x ++ " = " ++ module ++ ";"
  if (first ++ others).isEmpty then module ++ ";" else " ".intercalate (first ++ others)

/-- Whether imports from `source` are read from the registry. Those of the runtime of markup always
are; others, if `all` is set, unless they are relative or left to the loader of the page. -/
def isRegistered (g : RuntimeGlobals) (all : Bool) (source : String) : Bool :=
  g.isMarkupRuntime source ||
    (all && !(hasPrefix "." source) && !(Path.isExternal source))

end LiveNotes.Transpile
