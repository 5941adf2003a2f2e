import LiveNotes.Vault.Path

/-! A tree of folders and files, and the faults that working with paths in it may have. -/

namespace LiveNotes

inductive IoFault where
  | notFound | notAFolder | isAFolder | alreadyExists | invalidText | zeroByte | busy
  deriving DecidableEq, Repr

namespace IoFault

/-- The kind of a fault. -/
def kind : IoFault → String
  | .notFound => "NotFound"
  | .notAFolder => "NotADirectory"
  | .isAFolder => "IsADirectory"
  | .alreadyExists => "AlreadyExists"
  | .invalidText => "InvalidData"
  | .zeroByte => "InvalidInput"
  | .busy => "ResourceBusy"

def message : IoFault → String
  | .notFound => "No such file or directory (os error 2)"
  | .notAFolder => "Not a directory (os error 20)"
  | .isAFolder => "Is a directory (os error 21)"
  | .alreadyExists => "File exists (os error 17)"
  | .invalidText => "stream did not contain valid UTF-8"
  | .zeroByte => "file name contained an unexpected NUL byte"
  | .busy => "Device or resource busy (os error 16)"

end IoFault

/-- A file with its bytes, or a folder with its entries in the order of their names. -/
inductive FileTree where
  | file (bytes : List UInt8)
  | folder (entries : List (String × FileTree))
  deriving Repr, Inhabited

namespace FileTree

def empty : FileTree := .folder []

/-- Puts an entry in its place; one of the same name gives way to it. -/
def putEntry (name : String) (t : FileTree) : List (String × FileTree) → List (String × FileTree)
  | [] => [(name, t)]
  | (n, u) :: es =>
    if n < name then (n, u) :: putEntry name t es
    else if n = name then (name, t) :: es
    else (name, t) :: (n, u) :: es

/-- The tree below some names, each of which is an entry of the one before. -/
def descend : FileTree → List String → Except IoFault FileTree
  | t, [] => .ok t
  | .file _, _ :: _ => .error .notAFolder
  | .folder es, n :: ns =>
    match es.lookup n with
    | some t => descend t ns
    | none => .error .notFound

/-- Changes what stands below some names; folders on the way are made if need be. -/
def update (f : Option FileTree → FileTree) : List String → Option FileTree → FileTree
  | [], t => f t
  | n :: ns, t =>
    let es := match t with
      | some (.folder es) => es
      | _ => []
    .folder (putEntry n (update f ns (es.lookup n)) es)

/-- Follows a segment from the folder with the names `at_`, last first. -/
def step (root : FileTree) (at_ : List String) (segment : String) : Except IoFault (List String) :=
  match root.descend at_.reverse with
  | .error e => .error e
  | .ok (.file _) => .error .notAFolder
  | .ok (.folder _) => .ok (if segment == ".." then at_.tail else segment :: at_)

/-- The names that the segments of a path lead to. What the last one names need not be there. -/
def locate (root : FileTree) (path : List String) : Except IoFault (List String) :=
  if path.any (·.toList.contains '\x00') then .error .zeroByte
  else (path.foldlM (step root) []).map List.reverse

/-- What stands at a path. -/
def get (root : FileTree) (path : List String) : Except IoFault FileTree := do
  root.descend (← root.locate path)

def isFile (root : FileTree) (path : List String) : Bool :=
  match root.get path with
  | .ok (.file _) => true
  | _ => false

def isFolder (root : FileTree) (path : List String) : Bool :=
  match root.get path with
  | .ok (.folder _) => true
  | _ => false

def exists? (root : FileTree) (path : List String) : Bool :=
  match root.get path with
  | .ok _ => true
  | .error _ => false

/-- The bytes of the file at a path. -/
def read (root : FileTree) (path : List String) : Except IoFault (List UInt8) := do
  match ← root.get path with
  | .file bytes => pure bytes
  | .folder _ => throw .isAFolder

/-- Makes the folder at a path and all folders above it that are missing. -/
def makeFolder (root : FileTree) (path : List String) : Except IoFault FileTree :=
  match root.get path with
  | .ok (.folder _) => .ok root
  | .ok (.file _) => .error .alreadyExists
  | .error .notFound => .ok (update (fun t => t.getD empty) (path.foldl follow []).reverse root)
  | .error e => .error e
where
  follow (at_ : List String) (segment : String) : List String :=
    if segment == ".." then at_.tail else segment :: at_

/-- Replaces the file at a path as a whole. Folders above it are made; it must not be one itself. -/
def write (root : FileTree) (path : List String) (bytes : List UInt8) : Except IoFault FileTree := do
  let root ← root.makeFolder path.dropLast
  match path.getLast? with
  | none => throw .isAFolder
  | some ".." => throw .busy
  | some _ => match root.get path with
    | .ok (.folder _) => throw .isAFolder
    | .ok (.file _) | .error .notFound =>
      let names ← root.locate path
      pure (update (fun _ => .file bytes) names root)
    | .error e => throw e

mutual

/-- The paths of all files in a tree whose names do not start with a dot. -/
def files (above : String) : FileTree → List String
  | .file _ => [above]
  | .folder es => filesIn above es

def filesIn (above : String) : List (String × FileTree) → List String
  | [] => []
  | (name, t) :: es =>
    let here := if above == "" then name else above ++ "/" ++ name
    (if Text.hasPrefix "." name then [] else files here t) ++ filesIn above es

end

/-- The paths of all files below a folder, in order; names that start with a dot are left out. -/
def vaultFiles (root : FileTree) (path : List String) : List String :=
  match root.get path with
  | .ok (.folder es) => (filesIn "" es).mergeSort fun a b => decide (a ≤ b)
  | _ => []

/-- The nearest folder at or above a path that holds the data of a vault. -/
def vaultRoot? (root : FileTree) (path : List String) : Option (List String) :=
  ((List.range (path.length + 1)).reverse.map path.take).find? fun p =>
    root.isFolder (p ++ [".livedoc"]) || root.isFolder (p ++ [".obsidian"])

end FileTree

end LiveNotes
