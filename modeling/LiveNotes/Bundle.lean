import LiveNotes.Bundle.ChunkText
import LiveNotes.Bundle.Plugin
import LiveNotes.Digest.Blake3
import LiveNotes.Text.Bytes

/-! Bundles: all modules that an entry needs, as one. -/

namespace LiveNotes

open LiveNotes.Bundle

/-- The modules of a bundle while they are gathered, first come first served. -/
structure Gathering where
  graph : ModuleGraph := {}
  /-- The ids of modules that are not loaded yet. -/
  queue : List String
  /-- The ids of all modules known of. -/
  known : List String
  externals : List String := []
  /-- The imports that no plugin has an answer for. -/
  unresolved : List String := []
  deriving Inhabited

namespace Gathering

/-- Starts with the entry. -/
def start (id : String) : Gathering := { queue := [id], known := [id] }

/-- Adds what plugins say of an import of the module `importer`. -/
def addImport (s : Gathering) (importer : String) (i : Import) (found : Option Resolved) :
    Gathering :=
  match found with
  | none =>
    { s with unresolved :=
        s.unresolved ++ [i.specifier ++ " (imported by " ++ displayId importer ++ ")"] }
  | some ⟨id, true⟩ =>
    if s.externals.contains id then s else { s with externals := s.externals ++ [id] }
  | some ⟨id, false⟩ =>
    let s := { s with graph := { s.graph with edges := s.graph.edges ++
      [⟨importer, i.specifier, id, i.dynamic⟩] } }
    if s.known.contains id then s
    else { s with known := s.known ++ [id], queue := s.queue ++ [id] }

/-- Loads the module `id`. -/
def load (plugins : List Plugin) (s : Gathering) (id : String) : Except Error Gathering := do
  match ← (Plugins.load plugins id).mapError PluginError.toError with
  | none => throw (.bundle (.load "No plugin could load the module" (some id)))
  | some text =>
    let code ← (Plugins.transform plugins text id).mapError PluginError.toError
    let analysis ← (analyze code id).mapError Error.bundle
    let s ← analysis.imports.foldlM (fun s i => do
      let found ← (Plugins.resolve plugins i.specifier (some id)).mapError PluginError.toError
      pure (s.addImport id i found)) s
    pure { s with graph := s.graph.add ⟨id, code, analysis⟩ }

/-- Loads modules until none is left, at most `fuel` of them. -/
def run (plugins : List Plugin) : Nat → Gathering → Except Error Gathering
  | 0, s =>
    match s.queue with
    | [] => .ok s
    | id :: _ => .error (.bundle (.load "Too many modules" (some id)))
  | fuel + 1, s =>
    match s.queue with
    | [] => .ok s
    | id :: queue => do run plugins fuel (← load plugins { s with queue := queue } id)

end Gathering

structure Bundle where
  code : String
  /-- The ids of its modules, in the order of the code. -/
  modules : List String
  /-- The ids of the modules that it leaves to the page. -/
  externals : List String
  hash : String
  deriving DecidableEq, Repr, Inhabited

namespace Bundle

/-- How many modules a bundle may have when nothing else is said. -/
def maxModules : Nat := Nat.pow 2 20

/-- The id of the module that an entry stands for. -/
def entryId (plugins : List Plugin) (entry : String) : Except Error String := do
  match ← (Plugins.resolve plugins entry none).mapError PluginError.toError with
  | some ⟨id, false⟩ => pure id
  | _ => throw (.bundle (.entryNotFound entry))

/-- All modules that an entry needs, at most `limit`, and the index of its own. -/
def gather (plugins : List Plugin) (entry : String) (limit : Nat := maxModules) :
    Except Error (Gathering × Nat) := do
  let id ← entryId plugins entry
  let s ← Gathering.run plugins limit (.start id)
  pure (s, (s.graph.indexOf? id).getD 0)

/-- The bundle for an entry. It is refused unless it makes one chunk and all its imports are known. -/
def ofEntry (plugins : List Plugin) (entry : String) (inlineDynamic : Bool)
    (limit : Nat := maxModules) : Except Error Bundle := do
  let (s, index) ← gather plugins entry limit
  match s.graph.chunks index inlineDynamic with
  | [main] =>
    if s.unresolved.isEmpty then
      let code := s.graph.chunkText main.modules index
      pure ⟨code, main.modules.filterMap fun i => (s.graph.get? i).map (·.id), s.externals,
        Digest.contentHash (Text.bytesOf code)⟩
    else throw (.unresolvedImports s.unresolved)
  | chunks => throw (.chunkCount chunks.length)

end Bundle

end LiveNotes
