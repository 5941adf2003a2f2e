import LiveNotes.Error
import LiveNotes.Text.Bytes
import LiveNotes.Vault.FileTree

/-! Where the files of a vault are kept: in memory, or below a folder of a tree of files. -/

namespace LiveNotes

/-- Files in memory, by their exact paths. -/
structure MemoryStore where
  files : List (String × String) := []
  /-- The paths of files that cannot be read. -/
  unreadable : List String := []
  readOnly : Bool := false
  deriving Repr, Inhabited

namespace MemoryStore

def get? (m : MemoryStore) (path : String) : Option String := m.files.lookup path

def insert (m : MemoryStore) (path text : String) : MemoryStore :=
  { m with files := (path, text) :: m.files.filter (·.1 != path) }

def remove (m : MemoryStore) (path : String) : MemoryStore :=
  { m with files := m.files.filter (·.1 != path) }

def read (m : MemoryStore) (path : String) : Except Error String :=
  if m.unreadable.contains path then .error (.store path "unreadable")
  else match m.get? path with
    | some text => .ok text
    | none => .error (.store path "file not found")

def write (m : MemoryStore) (path text : String) : Except Error MemoryStore :=
  if m.readOnly then .error (.store path "read-only") else .ok (m.insert path text)

@[simp] theorem get?_insert_self (m : MemoryStore) (path text : String) :
    (m.insert path text).get? path = some text := by simp [get?, insert]

end MemoryStore

/-- The files below a folder. -/
structure FolderStore where
  tree : FileTree
  /-- The segments of the folder's path. -/
  root : List String
  deriving Repr, Inhabited

namespace FolderStore

/-- The segments of a path in the folder. -/
def absolute (s : FolderStore) (path : String) : List String :=
  s.root ++ (Text.split '/' path).filter fun p => p != "" && p != "."

def readBytes (s : FolderStore) (path : String) : Except Error (List UInt8) :=
  match s.tree.read (s.absolute path) with
  | .ok bytes => .ok bytes
  | .error e => .error (.store path e.message)

def write (s : FolderStore) (path text : String) : Except Error FolderStore :=
  match s.tree.write (s.absolute path) (Text.bytesOf text) with
  | .ok tree => .ok { s with tree := tree }
  | .error e => .error (.store path e.message)

end FolderStore

inductive Store where
  | memory (m : MemoryStore)
  | folder (f : FolderStore)
  deriving Repr, Inhabited

namespace Store

/-- Whether there is a file at a path. -/
def has (s : Store) (path : String) : Bool :=
  match s with
  | .memory m => (m.get? path).isSome
  | .folder f => f.tree.isFile (f.absolute path)

/-- The text of a file. -/
def read (s : Store) (path : String) : Except Error String :=
  match s with
  | .memory m => m.read path
  | .folder f => (f.readBytes path).map Text.decodeLossy

def readBytes (s : Store) (path : String) : Except Error (List UInt8) :=
  match s with
  | .memory m => (m.read path).map Text.bytesOf
  | .folder f => f.readBytes path

/-- The store with a new text for a file. -/
def write (s : Store) (path text : String) : Except Error Store :=
  match s with
  | .memory m => (m.write path text).map .memory
  | .folder f => (f.write path text).map .folder

end Store

end LiveNotes
