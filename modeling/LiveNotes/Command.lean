import LiveNotes.Activity
import LiveNotes.Command.Arguments
import LiveNotes.Document.Editor
import LiveNotes.Document.Position
import LiveNotes.Json.Reader
import LiveNotes.Settings.Reader

/-! The commands of the program. Each works on a tree of files and gives what is printed. -/

namespace LiveNotes

namespace Command

/-- Where the program is called. -/
structure Surroundings where
  tree : FileTree
  /-- The segments of the current folder. -/
  folder : List String
  /-- The vault that the surroundings name. -/
  vault : Option String := none
  /-- The time, as the clock tells it. -/
  moment : String := ""
  newKey : KeySource

/-- How a command ends. -/
structure Outcome where
  failed : Bool := false
  output : String := ""
  /-- What is told of a failure besides the output. -/
  complaint : String := ""
  deriving DecidableEq, Repr, Inhabited

namespace Outcome

def printed (output : String) : Outcome := { output := output }

def complain (message : String) : Outcome := { failed := true, complaint := message }

/-- A value as it is printed. -/
def json (v : Json) (failed : Bool) : Outcome := { failed := failed, output := v.pretty ++ "\n" }

end Outcome

/-! ### Files -/

/-- The segments of a path from the current folder. -/
def Surroundings.absolute (s : Surroundings) (path : String) : List String :=
  (if Text.hasPrefix "/" path then [] else s.folder) ++
    (Text.split '/' path).filter fun p => p != "" && p != "."

/-- The text of a file by its path from the current folder. -/
def Surroundings.readText (s : Surroundings) (path : String) : Except IoFault String :=
  let place := s.absolute path
  if (Text.hasSuffix "/" path || Text.hasSuffix "/." path) && s.tree.isFile place then
    .error .notAFolder
  else (s.tree.read place).map Text.decodeLossy

/-- A vault with its settings. -/
structure Vault where
  root : List String
  settings : Settings
  store : Store
  deriving Inhabited

/-- The folder of the vault that a command works on: the one it is given, or the nearest one, or else
the current folder. -/
def Surroundings.vaultFolder (s : Surroundings) (given : Option String) : List String :=
  match given with
  | some path => s.absolute path
  | none => (s.tree.vaultRoot? s.folder).getD s.folder

/-- Opens the vault that a command works on, with its settings. -/
def Surroundings.openVault (s : Surroundings) (given : Option String) : Except Error Vault := do
  let root := s.vaultFolder given
  let file := root ++ Text.split '/' Path.settingsPath
  let settings ← Settings.load s.tree file ("/" ++ "/".intercalate file)
  return ⟨root, settings, .folder ⟨s.tree, root⟩⟩

def Vault.desk (v : Vault) : Desk := ({ store := v.store } : Desk).withFolders v.settings.folders

/-- Loads components for a host that runs nothing, and where each page offers its modules. -/
def Surroundings.loader (s : Surroundings) : Loader String :=
  let globals : RuntimeGlobals := {}
  { host := staticHost (some (.ofSources id Registry.hostModules, globals.moduleRegistry))
    moment := s.moment }

def newWorld (v : Vault) : World String := { graph := .new, desk := v.desk }

/-! ### Commands -/

def errorJson (e : Error) : Json := .object [("code", .text e.code), ("message", .text e.message)]

def transpile (s : Surroundings) (file : String) (scope : Option String) (registerImports json : Bool) :
    Outcome :=
  match s.readText file with
  | .error fault => .complain fault.message
  | .ok source =>
    let base : Transpile.Options := {}
    let name := (s.absolute file).getLast?.getD base.file
    let options := { base with file := name, registerImports := registerImports, scope := scope }
    match Transpile.transpile source options, json with
    | .ok code, false => .printed code
    | .error e, false => .complain e.message
    | .ok code, true =>
      .json (.object [("ok", .bool true), ("filename", .text name), ("code", .text code)]) false
    | .error e, true =>
      .json (.object [("ok", .bool false), ("filename", .text name),
        ("error", errorJson (.transpile e))]) true

/-- What is printed of a bundle. No time is measured for it. -/
def bundleJson (r : Except Error (String × Bundle)) : Json :=
  match r with
  | .ok (entry, b) =>
    .object [("ok", .bool true), ("entry", .text entry), ("modules", .texts b.modules),
      ("externals", .texts b.externals), ("hash", .text b.hash),
      ("size_bytes", .nat b.code.utf8ByteSize), ("duration_ms", .nat 0)]
  | .error e =>
    .object [("ok", .bool false), ("modules", .texts []), ("externals", .texts []),
      ("size_bytes", .nat 0), ("duration_ms", .nat 0), ("error", errorJson e)]

def bundle (s : Surroundings) (v : Vault) (entry : Option String) (json : Bool) : Outcome :=
  let entry : Except Error String := match entry with
    | some path => .ok (Path.normalize path)
    | none => (Loader.findIndex v.store s.moment v.desk.folders {}).1
  let r := entry.bind fun entry => (s.loader.bundle v.store entry).map fun b => (entry, b)
  match r, json with
  | .ok (_, b), false => .printed b.code
  | .error e, false => .complain (e.code ++ ": " ++ e.message)
  | r, true => .json (bundleJson r) (r matches .error _)

/-- What becomes of a fragment in a pass. -/
def decisionWord (d : KeyDecision) : String :=
  if d.skip then "editing" else if d.fresh then "render" else "reuse"

def padded (width : Nat) (text : String) : String :=
  text ++ String.ofList (List.replicate (width - text.length) ' ')

/-- The lines that are printed for a pass. -/
def passLines (path : String) (pass : EditorPass) : List String :=
  [path ++ ": " ++ toString pass.fragments.length ++ " fragment(s)"] ++
  ((pass.fragments.zip pass.decisions).map fun (f, d) =>
    "  [" ++ toString f.start ++ ".." ++ toString f.stop ++ "] " ++ padded 17 f.kind.name ++ " key=" ++
      d.key ++ " " ++ decisionWord d) ++
  pass.instructions.map fun i =>
    "  #" ++ toString i.index ++ " reads " ++ i.read ++ " writes " ++ i.write

/-- Lines, each with its line break. -/
def unlines (lines : List String) : String := String.join (lines.map (· ++ "\n"))

/-- The byte that a cursor is at, if one is given. -/
def cursorByte? (text : String) : Option String → Except Document.Position.Fault (Option Nat)
  | none => .ok none
  | some cursor => (Document.Position.parse cursor).map fun p => some (p.byteOffset text)

def plan (s : Surroundings) (v : Vault) (document : String) (cursor : Option String) (json : Bool) :
    Outcome :=
  let path := Path.normalize document
  match v.store.read path with
  | .error e => .complain e.message
  | .ok text =>
    match cursorByte? text cursor with
    | .error fault => .complain fault.message
    | .ok byte =>
      let view : EditorView := { file := some path, text := text, cursor := byte }
      let (pass, _, _) := ({} : Editor).process s.newKey (ScopeGraph.new : ScopeGraph String) view
      if json then .json pass.toJson false else .printed (unlines (passLines path pass))

/-- The word for an output, the text of its value and the names that it publishes. -/
def outputParts : FragmentOutput String → String × Option String × List String
  | .text t => ("text", some t, [])
  | .markup factory => ("markup", some factory, [])
  | .component c children => ("component", some (c ++ "(" ++ Text.shown children ++ ")"), [])
  | .published names => ("published", none, names)
  | .empty => ("empty", none, [])
  | .error m => ("error", some m, [])

def outputJson (index : Nat) (kind : FragmentKind) (o : FragmentOutput String) : Json :=
  let (word, value, names) := outputParts o
  .object ([("index", .nat index), ("kind", .text kind.name), ("output", .text word)] ++
    (value.map fun t => ("value", Json.text t)).toList ++
    (if names.isEmpty then [] else [("names", .texts names)]))

def outputLine (index : Nat) (kind : FragmentKind) (o : FragmentOutput String) : String :=
  let (word, value, names) := outputParts o
  "#" ++ toString index ++ " " ++ kind.name ++ " " ++ word ++ ": " ++
    value.getD (", ".intercalate names)

/-- The outputs of a preview that runs alone. -/
def previewOutputs (e : Evaluator String) (p : Preview String) (w : World String) :
    List (FragmentKind × FragmentOutput String) :=
  match (Activity.settle e [.inl (.previewing p)] w).1 with
  | [.inr (.outputs os)] => os
  | _ => []

def isFailure : FragmentOutput String → Bool
  | .error _ => true
  | _ => false

/-- The store after a command, which may have left a report there. -/
def treeOf (s : Surroundings) (w : World String) : FileTree :=
  match w.desk.store with
  | .folder f => f.tree
  | .memory _ => s.tree

def notLoaded : String := "components not loaded; run \x60livedoc report\x60 for details"

def preview (s : Surroundings) (v : Vault) (document : String) (json : Bool) : Outcome × FileTree :=
  let path := Path.normalize document
  match v.store.read path with
  | .error e => (.complain e.message, s.tree)
  | .ok text =>
    let (loaded, w) := (newWorld v).refresh s.loader .startup
    let results := previewOutputs { loader := s.loader, gated := true }
      { document := .file path, text := text } w
    let outcome :=
      if json then
        .json (.object [("ok", .bool (results.all fun r => !isFailure r.2)), ("document", .text path),
          ("componentsLoaded", .bool loaded),
          ("fragments", .array (results.zipIdx.map fun ((k, o), i) => outputJson i k o))]) false
      else
        .printed (unlines ((if loaded then [] else [notLoaded]) ++
          results.zipIdx.map fun ((k, o), i) => outputLine i k o))
    (outcome, treeOf s w)

def refresh (s : Surroundings) (v : Vault) (json : Bool) : Outcome × FileTree :=
  let (ok, w) := (newWorld v).refresh s.loader .refresh
  let names := w.graph.names rootScopeId
  let outcome : Outcome :=
    if json then .json (.object [("ok", .bool ok), ("exports", .texts names)]) !ok
    else if ok then
      .printed (unlines ("User module was reloaded." ::
        if names.isEmpty then [] else ["exports: " ++ ", ".intercalate names]))
    else { failed := true }
  ({ outcome with complaint := "\n".intercalate w.desk.notices }, treeOf s w)

def report (v : Vault) (json : Bool) : Outcome :=
  if json then
    let stored := match v.store.read Path.reportPath with
      | .ok text => (Json.parse text).toOption
      | .error _ => none
    .json (.object ([("ok", .bool stored.isSome), ("path", .text Path.reportPath)] ++
      (stored.map fun r => ("report", r)).toList)) false
  else .printed (Report.shown v.store ++ "\n")

/-- Does what the program is asked to do. -/
def perform (s : Surroundings) (i : Invocation) : Outcome × FileTree :=
  match s.openVault i.vault with
  | .error e => (.complain e.message, s.tree)
  | .ok v =>
    match i.action with
    | .transpile file scope registerImports =>
      (transpile s file scope registerImports i.json, s.tree)
    | .bundle entry => (bundle s v entry i.json, s.tree)
    | .plan document cursor => (plan s v document cursor i.json, s.tree)
    | .preview document => preview s v document i.json
    | .refresh => refresh s v i.json
    | .watch => refresh s v false
    | .report => (report v i.json, s.tree)

end Command

/-- How the program ends. -/
structure Ending where
  /-- Zero if all went well, one after a failure and two for wrong arguments. -/
  status : Nat
  output : String
  complaint : String
  deriving DecidableEq, Repr, Inhabited

/-- The program: what it prints for its arguments, and the files that it leaves. -/
def Command.run (s : Command.Surroundings) (arguments : List String) : Ending × FileTree :=
  match readArguments s.vault arguments with
  | .error (.help text) => (⟨0, text, ""⟩, s.tree)
  | .error .version => (⟨0, versionText, ""⟩, s.tree)
  | .error (.fault message) => (⟨2, "", "error: " ++ message⟩, s.tree)
  | .ok i =>
    let (o, tree) := perform s i
    (⟨if o.failed then 1 else 0, o.output, o.complaint⟩, tree)

end LiveNotes
