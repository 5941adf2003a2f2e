import LiveNotes.Bundle.Plugin
import LiveNotes.Scope.Graph
import LiveNotes.Transpile
import LiveNotes.Vault.Store

/-! The plugin that finds modules among the files of a vault and transpiles them. -/

namespace LiveNotes.Bundle

open Text

/-- How a script is transpiled. -/
abbrev Transpiler := (source : String) → Transpile.Options → Except TranspileError String

namespace VaultFiles

def name : String := "virtual-fs"

/-- The paths that a relative specifier may stand for: without an extension more, and with each. -/
def candidates (importerPath specifier : String) : List String :=
  let path := Path.resolve importerPath specifier
  path :: Path.sourceExtensions.map (path ++ ·)

/-- The first candidate that is a file. -/
def probe (store : Store) (specifier importerPath : String) : Except PluginError String :=
  let tried := candidates importerPath specifier
  match tried.find? store.has with
  | some path => .ok path
  | none => .error (.ofResolution name ⟨specifier, importerPath, tried⟩)

def resolve (store : Store) (specifier : String) (importer : Option String) :
    Except PluginError (Option Resolved) :=
  if hasPrefix Path.modulePrefix specifier then .ok (some ⟨specifier, false⟩)
  else match importer with
    | none => .ok (some ⟨Path.toModuleId specifier, false⟩)
    | some importer =>
      if Path.isExternal specifier then .ok (some ⟨specifier, true⟩)
      else if Path.isRelative specifier then
        match Path.ofModuleId? importer with
        | some path => (probe store specifier path).map fun found =>
          some ⟨Path.toModuleId found, false⟩
        | none => .ok none
      else .ok none

def load (store : Store) (id : String) : Except PluginError (Option String) :=
  match Path.ofModuleId? id with
  | none => .ok none
  | some path =>
    if store.has path then
      match store.read path with
      | .ok text => .ok (some text)
      | .error e => .error ⟨name, .load, e.message, none⟩
    else .ok none

def isStylesheet (path : String) : Bool := Path.extension? path == some "css"

/-- Scripts are transpiled, with their free names read from the root scope. -/
def transform (transpiler : Transpiler) (globals : RuntimeGlobals) (code id : String) :
    Except PluginError (Option String) :=
  match Path.ofModuleId? id with
  | none => .ok none
  | some path =>
    if isStylesheet path then .ok none
    else
      let options : Transpile.Options :=
        { file := path, registerImports := true, scope := some rootScopeId, globals := globals }
      match transpiler code options with
      | .ok code => .ok (some code)
      | .error e => .error (.ofTranspile name e)

end VaultFiles

/-- The plugin for the files of a store. -/
def vaultFiles (store : Store) (transpiler : Transpiler) (globals : RuntimeGlobals) : Plugin where
  name := VaultFiles.name
  resolve := VaultFiles.resolve store
  load := VaultFiles.load store
  transform := VaultFiles.transform transpiler globals

end LiveNotes.Bundle
