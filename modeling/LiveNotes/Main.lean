import LiveNotes.Command
import LiveNotes.Loader.Report

/-! The program. What a command may look at is read into a tree of files, the command works on that
tree, and the report that it leaves there is written back. -/

namespace LiveNotes.Main

open Command

/-- The point of time, as the file system tells it. -/
def now : IO String := do
  let (_, path) ← IO.FS.createTempFile
  let data ← path.metadata
  IO.FS.removeFile path
  return Moment.text data.modified.sec.toNat data.modified.nsec.toNat

/-- Reads what is at a path with all that is below it. What cannot be read is left out. -/
partial def readTree (cwd : String) (path : String) : IO (Option FileTree) := do
  let place := (← IO.currentDir) / cwd / path
  try
    if ← place.isDir then
      let mut entries := []
      for entry in ← place.readDir do
        match ← readTree place.toString entry.fileName with
        | some t => entries := FileTree.putEntry entry.fileName t entries
        | none => pure ()
      return some (.folder entries)
    else return some (.file (← IO.FS.readBinFile place).toList)
  catch _ => return none

/-- Adds what is at some segments to a tree. -/
def addPath (tree : FileTree) (segments : List String) : IO FileTree := do
  match ← readTree "/" ("/" ++ "/".intercalate segments) with
  | some t => return FileTree.update (fun _ => t) segments tree
  | none => return tree

/-- Adds the folders that tell where a vault is, for a folder and all above it. -/
def addMarks (tree : FileTree) (folder : List String) : IO FileTree := do
  let mut tree := tree
  for n in List.range (folder.length + 1) do
    for mark in [".livedoc", ".obsidian"] do
      let path := folder.take n ++ [mark]
      if ← ((← IO.currentDir) / ("/" ++ "/".intercalate path)).isDir then
        tree := (tree.makeFolder path).toOption.getD tree
  return tree

/-- Where the program is called, with the files that the action may look at. -/
def surroundings (action : Action) (vault : Option String) : IO Surroundings := do
  let cwd ← IO.currentDir
  let folder := (Text.split '/' cwd.toString).filter (· != "")
  let seed ← IO.getRandomBytes 8
  let bare : Surroundings :=
    { tree := (FileTree.empty.makeFolder folder).toOption.getD .empty
      folder := folder
      vault := ← IO.getEnv vaultVariable
      moment := ← now
      newKey := fun n => Digest.shortToken [seed.toList, Digest.lengthBytes (n + 1)] }
  let marked := { bare with tree := ← addMarks bare.tree folder }
  let tree ← addPath marked.tree (marked.vaultFolder vault)
  match action with
  | .transpile file _ _ => return { marked with tree := ← addPath tree (marked.absolute file) }
  | _ => return { marked with tree := tree }

/-- Writes the report of a vault if it is a new one. -/
def writeReport (root : List String) (before after : FileTree) : IO Unit := do
  let path := root ++ Text.split '/' Path.reportPath
  match after.read path with
  | .error _ => pure ()
  | .ok bytes =>
    unless (before.read path).toOption == some bytes do
      let cwd ← IO.currentDir
      IO.FS.createDirAll (cwd / ("/" ++ "/".intercalate path.dropLast))
      IO.FS.writeBinFile (cwd / ("/" ++ "/".intercalate path)) ⟨bytes.toArray⟩

def report (e : Ending) : IO Unit := do
  (← IO.getStdout).putStr e.output
  unless e.complaint.isEmpty do (← IO.getStderr).putStrLn e.complaint

/-- Runs the program once. -/
def runOnce (arguments : List String) (action : Action) (vault : Option String) : IO Ending := do
  let s ← surroundings action vault
  let (e, tree) := Command.run s arguments
  writeReport (s.vaultFolder vault) s.tree tree
  report e
  return e

/-- Runs the program whenever the components may have changed. -/
partial def watch (arguments : List String) (vault : Option String) (last : List (List UInt8)) :
    IO Unit := do
  let s ← surroundings .watch vault
  let root := s.vaultFolder vault
  let texts := (s.tree.vaultFiles root).filterMap fun path =>
    (s.tree.read (root ++ Text.split '/' path)).toOption
  unless texts == last do
    discard (runOnce arguments .watch vault)
  IO.sleep defaultDebounce.toUInt32
  watch arguments vault texts

end LiveNotes.Main

open LiveNotes in
def main (arguments : List String) : IO UInt32 := do
  let vault ← IO.getEnv Command.vaultVariable
  match Command.readArguments vault arguments with
  | .ok { action := .watch, vault := vault, .. } =>
    Main.watch arguments vault []
    return 0
  | .ok i => return (← Main.runOnce arguments i.action i.vault).status.toUInt32
  | .error _ =>
    let (e, _) := Command.run { tree := .empty, folder := [], vault := vault, newKey := toString }
      arguments
    Main.report e
    return e.status.toUInt32
