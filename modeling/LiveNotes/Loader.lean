import LiveNotes.Bundle
import LiveNotes.Bundle.Stylesheet
import LiveNotes.Digest.Token
import LiveNotes.Loader.Host
import LiveNotes.Loader.Report
import LiveNotes.Settings

/-! Loads the components of a vault: finds their index file, bundles it and imports the bundle. Each
load leaves a report behind; one that fails also leaves notices. -/

namespace LiveNotes

/-- What a load gives: what the components export, or nothing. -/
structure LoadOutcome (V : Type) where
  exports : Exports V := []
  ok : Bool
  deriving Repr, Inhabited

/-- What a loader works with. -/
structure Loader (V : Type) where
  host : Host V
  transpiler : Bundle.Transpiler := Transpile.transpile
  globals : RuntimeGlobals := {}
  /-- The time, as the clock tells it. -/
  moment : String := ""

/-- What a loader changes. -/
structure Desk where
  store : Store
  /-- The folders that may hold components, in the order of trial. -/
  folders : List String := [defaultFolder]
  urls : UrlTable := {}
  /-- How many modules have been imported. -/
  imports : Nat := 0
  /-- Messages for the user, first things first. -/
  notices : List String := []
  deriving Inhabited

namespace Desk

/-- Sets the folders; there is always one. -/
def withFolders (d : Desk) (folders : List String) : Desk :=
  let found := normalizeFolders folders
  { d with folders := if found.isEmpty then [defaultFolder] else found }

end Desk

namespace Loader

variable {V : Type}

/-! ### The index file -/

/-- The files that may be the index, in the order of trial. -/
def indexCandidates (folders : List String) : List String :=
  folders.flatMap fun folder => Path.indexExtensions.map fun extension =>
    Path.normalize (folder ++ "/index." ++ extension)

/-- The first of some paths that is a file; each trial is recorded. -/
def probe (store : Store) (moment : String) : List String → Timeline → Option String × Timeline
  | [], t => (none, t)
  | path :: paths, t =>
    let found := store.has path
    let t := t.record moment "index.probe" (.ofFields [("path", .text path), ("exists", .bool found)])
    if found then (some path, t) else probe store moment paths t

def findIndex (store : Store) (moment : String) (folders : List String) (t : Timeline) :
    Except Error String × Timeline :=
  let tried := indexCandidates folders
  match probe store moment tried t with
  | (some path, t) => (.ok path, t)
  | (none, t) => (.error (.indexNotFound folders tried), t)

/-! ### Bundles and modules -/

/-- The bundle for an entry in the vault. -/
def bundle (l : Loader V) (store : Store) (entry : String) : Except Error Bundle :=
  Bundle.ofEntry [Bundle.vaultFiles store l.transpiler l.globals, Bundle.stylesheets] entry true

/-- A word that is new with each import. -/
def freshWord (l : Loader V) (imports : Nat) : String :=
  Digest.shortToken [Digest.lengthBytes imports, Text.bytesOf l.moment]

/-- Code that is not the same as in any import before. -/
def freshCode (l : Loader V) (imports : Nat) (code : String) : String :=
  "// Cache buster: " ++ l.freshWord imports ++ "\n\n" ++ code

/-- Registers code under a URL to import it from. -/
def register (l : Loader V) (d : Desk) (code : String) : String × Desk :=
  let (url, urls) := l.host.createUrl d.urls (l.freshCode d.imports code)
  (url, { d with urls := urls, imports := d.imports + 1 })

/-- Imports what is registered under a URL, which is given back in any case. -/
def importUrl (l : Loader V) (d : Desk) (url : String) : Except Error (Exports V) × Desk :=
  (l.host.evaluate d.urls url, { d with urls := l.host.revokeUrl d.urls url })

/-- Imports code. -/
def importCode (l : Loader V) (d : Desk) (code : String) : Except Error (Exports V) × Desk :=
  let (url, d) := l.register d code
  l.importUrl d url

/-! ### Loads -/

/-- How much of a bundle is kept in the report of a failed import. -/
def previewSize : Nat := 1200

def errorData (e : Error) : Json := .ofFields [("code", .text e.code), ("message", .text e.message)]

def bundleData (b : Bundle) : Json :=
  .ofFields [("modules", .texts b.modules), ("externals", .texts b.externals), ("hash", .text b.hash),
    ("bytes", .nat b.code.utf8ByteSize)]

/-- What the user is told of a failed load. -/
def failureNotice (phase : LoadPhase) (e : Error) : String :=
  "Error happened while " ++ (if phase = .evaluate then "loading" else "bundling") ++ " components: " ++
    e.message

/-- Ends a load that has failed. -/
def fail (l : Loader V) (d : Desk) (phase : LoadPhase) (trigger : LoadTrigger)
    (context : List (String × Json)) (t : Timeline) (e : Error) : LoadOutcome V × Desk :=
  let report : Report := ⟨phase, trigger, l.moment, some e, .ofFields context, t⟩
  let (path, store) := report.save d.store
  let more := (path.map fun p => "Debug details written to " ++ p).toList
  ({ ok := false },
    { d with store := store, notices := d.notices ++ failureNotice phase e :: more })

/-- Imports the bundle for the entry of the components. -/
def importBundle (l : Loader V) (d : Desk) (trigger : LoadTrigger) (entry : String) (b : Bundle)
    (t : Timeline) : LoadOutcome V × Desk :=
  let context := [("folders", .texts d.folders), ("entry", .text entry)]
  let t := t.record l.moment "bundle.done" (bundleData b)
  let t := t.record l.moment "import.start" (.ofFields [("bytes", .nat b.code.utf8ByteSize)])
  match l.importCode d b.code with
  | (.ok exports, d) =>
    let names := ("exports", Json.texts exports.names)
    let t := t.record l.moment "import.done" (.ofFields [names])
    let report : Report := ⟨.success, trigger, l.moment, none, .ofFields (names :: context), t⟩
    (⟨exports, true⟩, { d with store := (report.save d.store).2 })
  | (.error e, d) =>
    let t := t.record l.moment "import.error" (errorData e)
    let preview := String.ofList (b.code.toList.take previewSize)
    l.fail d .evaluate trigger (("bundledCodePreview", .text preview) :: context) t e

/-- Loads the components. -/
def load (l : Loader V) (d : Desk) (trigger : LoadTrigger) : LoadOutcome V × Desk :=
  let folders := ("folders", Json.texts d.folders)
  let t := ({} : Timeline).record l.moment "load.start"
    (.ofFields [("trigger", .text trigger.name), folders])
  match findIndex d.store l.moment d.folders t with
  | (.error e, t) => l.fail d .bundle trigger [folders] t e
  | (.ok entry, t) =>
    let t := t.record l.moment "bundle.start" (.ofFields [("entry", .text entry)])
    match l.bundle d.store entry with
    | .error e =>
      let t := t.record l.moment "bundle.error" (errorData e)
      l.fail d .bundle trigger [folders, ("entry", .text entry)] t e
    | .ok b => l.importBundle d trigger entry b t

end Loader

end LiveNotes
