import LiveNotes.Decimal.Binary64
import LiveNotes.Error
import LiveNotes.Json.Reader
import LiveNotes.Settings
import LiveNotes.Text.Bytes
import LiveNotes.Vault.FileTree

/-! Settings as they are stored: an object, of which unknown fields are skipped and missing ones have
their default, or the list of the values in order. Folders and times that make no sense are no
faults; other fields of a wrong type, and fields given twice, are. Settings in a file are read so too. -/

namespace LiveNotes.Settings

open Json Json.Reader Decimal

/-- The values found so far. -/
structure Found where
  folder : Option String := none
  folders : Option (List String) := none
  autoRefresh : Option Bool := none
  debounce : Option Nat := none
  debugLogging : Option Bool := none

/-- What was found; the list of folders is empty when it is missing. -/
def Found.settings (f : Found) : Settings :=
  let base : Settings := {}
  { folder := f.folder.getD base.folder
    folders := f.folders.getD []
    autoRefresh := f.autoRefresh.getD base.autoRefresh
    debounce := f.debounce.getD base.debounce
    debugLogging := f.debugLogging.getD base.debugLogging }

/-- A value of a wrong type, which starts with `c`; its own faults come first. -/
def wrongType {α : Type} (c : Char) : Reader α := do
  unless c == '[' || c == '{' do
    let _ ← valueAt true mismatch mismatch c
  mismatch

def textValue : Reader String := do
  match ← peek with
  | none => unfinished
  | some '\x22' => string true
  | some c => wrongType c

def boolValue : Reader Bool := do
  match ← peek with
  | none => unfinished
  | some 't' => word "true".toList; pure true
  | some 'f' => word "false".toList; pure false
  | some c => wrongType c

/-- How deep the value of a field may nest. -/
def fieldDepth : Nat := depthLimit - 1

/-- The texts in a list; anything else holds none. -/
def foldersOf (v : Json) : List String := (v.asItems?.getD []).filterMap asText?

/-- The number that a value stands for. -/
def numberOf (v : Json) : Binary64 :=
  match v with
  | .int n => .ofInt n
  | .float x => x
  | .text s => (Binary64.ofText? (Text.trim s)).getD .nan
  | _ => .nan

def foldersValue (size : Nat) : Reader (List String) := do
  return foldersOf (← value size true fieldDepth)

def debounceValue (size : Nat) : Reader Nat := do
  return normalizeDebounce (numberOf (← value size true fieldDepth)) defaultDebounce

/-- Reads a value behind its colon, unless it was found before. -/
def once {α β : Type} (found : Option α) (read : Reader β) : Reader β := do
  if found.isSome then mismatch
  colon
  read

/-- Reads the value of the field `name`. -/
def fieldValue (size : Nat) (f : Found) (name : String) : Reader Found := do
  match name with
  | "componentsFolder" => return { f with folder := some (← once f.folder textValue) }
  | "componentsFolders" =>
    return { f with folders := some (← once f.folders (foldersValue size)) }
  | "autoRefreshEnabled" =>
    return { f with autoRefresh := some (← once f.autoRefresh boolValue) }
  | "autoRefreshDebounceMs" =>
    return { f with debounce := some (← once f.debounce (debounceValue size)) }
  | "debugLoggingEnabled" =>
    return { f with debugLogging := some (← once f.debugLogging boolValue) }
  | _ => do
    colon
    let _ ← value size false size
    pure f

def ofObject (size : Nat) : Reader Found :=
  loop (fun (f, first) => do
    if ← hasItem '}' first then
      let name ← fieldName true
      return .inl (← fieldValue size f name, false)
    else
      skip
      return .inr f) size ({}, true)

/-- The next item of a list, if there is one. -/
def item? {α : Type} (first : Bool) (read : Reader α) : Reader (Option α) := do
  if ← hasItem ']' first then some <$> read else pure none

def ofList (size : Nat) : Reader Found := do
  let folder ← item? true textValue
  let folders ← item? false (foldersValue size)
  let autoRefresh ← item? false boolValue
  let debounce ← item? false (debounceValue size)
  let debugLogging ← item? false boolValue
  match ← peek with
  | none => unfinished
  | some ']' =>
    skip
    pure ⟨folder, folders, autoRefresh, debounce, debugLogging⟩
  | some _ => malformed

/-- Reads normalized settings from a text. -/
def parse (text : String) : Except JsonFault Settings :=
  let cs := text.toList
  let size := cs.length + 2
  let all : Reader Found := do
    let found ← match ← peek with
      | none => unfinished
      | some '{' => skip; ofObject size
      | some '[' => skip; ofList size
      | some c => wrongType c
    done
    pure found
  (all.run cs).map fun (found, _) => found.settings.normalized

/-- Settings as a value. -/
def toJson (s : Settings) : Json :=
  .object [("componentsFolder", .text s.folder), ("componentsFolders", .texts s.folders),
    ("autoRefreshEnabled", .bool s.autoRefresh), ("autoRefreshDebounceMs", .nat s.debounce),
    ("debugLoggingEnabled", .bool s.debugLogging)]

end LiveNotes.Settings

namespace LiveNotes.Settings

/-- The settings in the file at a path, whose text is `name`; those of no file are the default. -/
def load (tree : FileTree) (path : List String) (name : String) : Except Error Settings :=
  if tree.exists? path then
    match tree.read path with
    | .error fault => .error (.settingsUnreadable name fault.message)
    | .ok bytes =>
      match Text.decode? bytes with
      | none => .error (.settingsUnreadable name IoFault.invalidText.message)
      | some text => (parse text).mapError (.settingsMalformed name)
  else .ok {}

end LiveNotes.Settings
