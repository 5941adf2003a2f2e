import LiveNotes.Error

/-! Plugins of the bundler: each may say what a specifier stands for, supply the text of a module and
change it. -/

namespace LiveNotes.Bundle

/-- What a plugin is asked. -/
inductive Hook where
  | resolve | load | transform
  deriving DecidableEq, Repr

def Hook.name : Hook → String
  | .resolve => "resolveId"
  | .load => "load"
  | .transform => "transform"

inductive PluginCause where
  | resolution (e : ResolutionError)
  | transpile (e : TranspileError)
  deriving DecidableEq, Repr

structure PluginError where
  plugin : String
  hook : Hook
  summary : String
  cause : Option PluginCause := none
  deriving DecidableEq, Repr

namespace PluginError

def ofResolution (plugin : String) (e : ResolutionError) : PluginError :=
  ⟨plugin, .resolve, e.message, some (.resolution e)⟩

def ofTranspile (plugin : String) (e : TranspileError) : PluginError :=
  ⟨plugin, .transform, e.message, some (.transpile e)⟩

def message (e : PluginError) : String :=
  "[" ++ e.plugin ++ "] " ++ e.hook.name ++ ": " ++ e.summary

/-- A failure with a cause is known by its cause. -/
def toError (e : PluginError) : Error :=
  match e.cause with
  | some (.resolution c) => .resolution c
  | some (.transpile c) => .transpile c
  | none => .bundle (.plugin e.message)

end PluginError

/-- What a specifier stands for. An external module is left to the page. -/
structure Resolved where
  id : String
  external : Bool := false
  deriving DecidableEq, Repr

/-- Answers are `none` where another plugin is to answer. -/
structure Plugin where
  name : String
  /-- What a specifier stands for in the importer, which an entry has none of. -/
  resolve : (specifier : String) → (importer : Option String) →
    Except PluginError (Option Resolved) := fun _ _ => .ok none
  /-- The text of the module with the given id. -/
  load : (id : String) → Except PluginError (Option String) := fun _ => .ok none
  /-- A new text for a module with the given text and id. -/
  transform : (code id : String) → Except PluginError (Option String) := fun _ _ => .ok none

namespace Plugins

/-- The first answer of some plugins. -/
def firstAnswer {α : Type} (ask : Plugin → Except PluginError (Option α)) :
    List Plugin → Except PluginError (Option α)
  | [] => .ok none
  | p :: ps =>
    match ask p with
    | .ok none => firstAnswer ask ps
    | answer => answer

def resolve (plugins : List Plugin) (specifier : String) (importer : Option String) :
    Except PluginError (Option Resolved) :=
  firstAnswer (fun p => p.resolve specifier importer) plugins

def load (plugins : List Plugin) (id : String) : Except PluginError (Option String) :=
  firstAnswer (fun p => p.load id) plugins

/-- The text that is left when each plugin has changed what the one before has left. -/
def transform (plugins : List Plugin) (code id : String) : Except PluginError String :=
  plugins.foldlM (fun code p => do return (← p.transform code id).getD code) code

end Plugins

end LiveNotes.Bundle
