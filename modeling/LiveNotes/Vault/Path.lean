import LiveNotes.Text.Split

/-! Paths of the files in a vault, with slashes between their segments, and the ids of the modules
that are read from them. -/

namespace LiveNotes.Path

open Text

/-- In front of the ids of modules that are files of the vault. -/
def modulePrefix : String := "livedoc://vault/"

/-- The extensions that a relative import may leave out, in the order they are tried. -/
def sourceExtensions : List String := [".js", ".jsx", ".ts", ".tsx", ".css"]

/-- The extensions of the file that exports the components of a folder, in the order of trial. -/
def indexExtensions : List String := ["js", "jsx", "ts", "tsx"]

/-- The file in each folder that holds data and no source. -/
def storageFile : String := "storage.json"

def reportPath : String := ".livedoc/last-load.json"

def settingsPath : String := ".livedoc/settings.json"

/-- Drops each slash behind another one; `behind` tells whether a slash stands in front. -/
def collapseSlashes (behind : Bool) : List Char → List Char
  | [] => []
  | c :: cs =>
    if c = '/' then
      if behind then collapseSlashes true cs else c :: collapseSlashes true cs
    else c :: collapseSlashes false cs

def forwardSlash (c : Char) : Char := if c = '\x5c' then '/' else c

/-- Characters of a path with single forward slashes, no `./` in front and no slash at the end. -/
def normalizeChars (cs : List Char) : List Char :=
  let out := collapseSlashes false (cs.map forwardSlash)
  dropEnd (· == '/') ((afterStart? ['.', '/'] out).getD out)

/-- A path with single forward slashes, no `./` in front and no slash at the end. -/
def normalize (path : String) : String := String.ofList (normalizeChars path.toList)

/-- Follows a segment of a relative path, where `parts` are the folders so far, last first. -/
def follow (parts : List String) (segment : String) : List String :=
  if segment == "" || segment == "." then parts
  else if segment == ".." then parts.tail
  else segment :: parts

/-- The path that `relative` stands for in the file `base`. There is nothing above the vault. -/
def resolve (base relative : String) : String :=
  let folders := ((split '/' base).filter (· != "")).dropLast
  "/".intercalate ((split '/' relative).foldl follow folders.reverse).reverse

/-- The id of the module at a path. -/
def toModuleId (path : String) : String := modulePrefix ++ normalize path

/-- The path of a module that is a file of the vault. -/
def ofModuleId? (id : String) : Option String := dropPrefix? modulePrefix id

/-- Whether a specifier is left to the loader of the page. -/
def isExternal (specifier : String) : Bool :=
  hasPrefix "http://" specifier || hasPrefix "https://" specifier

def isRelative (specifier : String) : Bool :=
  hasPrefix "./" specifier || hasPrefix "../" specifier

/-- A letter of ASCII as a small one. -/
def lowerAscii (c : Char) : Char :=
  if 'A' ≤ c && c ≤ 'Z' then Char.ofNat (c.toNat + 32) else c

/-- The extension of a path in small letters; a name that starts with its only dot has none. -/
def extension? (path : String) : Option String :=
  let name := (path.toList.reverse.takeWhile (· != '/')).reverse
  let ext := (name.reverse.takeWhile (· != '.')).reverse
  let stem := name.length - ext.length - 1
  if ext.length < name.length && ext ≠ [] && stem ≠ 0 then some (String.ofList (ext.map lowerAscii))
  else none

/-- A path below a folder. -/
def join (folder path : String) : String :=
  if folder == "" || hasSuffix "/" folder then folder ++ path else folder ++ "/" ++ path

/-- The segments of a path of the file system; a first one `/` makes it absolute. -/
def segments (path : String) : List String :=
  let pieces := split '/' path
  let rooted := hasPrefix "/" path
  let named := match pieces with
    | "." :: rest => "." :: rest.filter fun p => p != "" && p != "."
    | _ => pieces.filter fun p => p != "" && p != "."
  if rooted then "/" :: named else named

/-- What follows the segments `start`. -/
def afterSegments? : List String → List String → Option (List String)
  | [], rest => some rest
  | _ :: _, [] => none
  | s :: start, p :: path => if s = p then afterSegments? start path else none

/-- A path below `root` by its segments; `none` for `root` and paths outside. -/
def relativeTo? (root path : String) : Option String :=
  match afterSegments? (segments root) (segments path) with
  | some [] | none => none
  | some rest => some ("/".intercalate rest)

end LiveNotes.Path
