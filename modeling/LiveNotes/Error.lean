/-! What can go wrong, as causes, with the code and the text of each. -/

namespace LiveNotes

/-- Texts with `, ` between them. -/
def commaList (texts : List String) : String := ", ".intercalate texts

/-- What keeps a script from being transpiled: it cannot be read, it has no plain form, or nothing
is left of it. -/
inductive TranspileFault where
  | parse | transform | empty
  deriving DecidableEq, Repr

structure TranspileError where
  fault : TranspileFault
  file : String
  diagnostics : List String := []
  deriving DecidableEq, Repr

namespace TranspileError

def code (e : TranspileError) : String :=
  match e.fault with
  | .parse => "TRANSPILE_PARSE_ERROR"
  | .transform => "TRANSPILE_TRANSFORM_ERROR"
  | .empty => "TRANSPILE_EMPTY_OUTPUT"

/-- The text without its code and diagnostics. -/
def summary (e : TranspileError) : String :=
  match e.fault with
  | .parse => "Failed to parse " ++ e.file
  | .transform => "Failed to transform " ++ e.file
  | .empty => "Transpiled output of " ++ e.file ++ " is empty"

/-- The code, the summary and each diagnostic on a line of its own. -/
def message (e : TranspileError) : String :=
  e.code ++ ": " ++ e.summary ++ String.join (e.diagnostics.map ("\n  - " ++ ·))

end TranspileError

inductive BundleError where
  /-- The entry is no module. -/
  | entryNotFound (entry : String)
  | load (summary : String) (path : Option String)
  | parse (diagnostics : List String) (id : String)
  | plugin (summary : String)
  deriving DecidableEq, Repr

namespace BundleError

def code : BundleError → String
  | .entryNotFound _ => "BUNDLE_ENTRY_NOT_FOUND"
  | .load _ _ => "BUNDLE_LOAD_ERROR"
  | .parse _ _ => "BUNDLE_PARSE_ERROR"
  | .plugin _ => "PLUGIN_ERROR"

def path : BundleError → Option String
  | .entryNotFound entry => some entry
  | .load _ path => path
  | .parse _ id => some id
  | .plugin _ => none

def summary : BundleError → String
  | .entryNotFound _ => "No plugin resolved the entry"
  | .load text _ => text
  | .parse diagnostics _ => "Failed to parse module: " ++ "; ".intercalate diagnostics
  | .plugin text => text

def message (e : BundleError) : String :=
  e.code ++ ": " ++ e.summary ++ (e.path.elim "" fun p => " (" ++ p ++ ")")

end BundleError

/-- A relative import for which none of the files that were tried is there. -/
structure ResolutionError where
  specifier : String
  importer : String
  tried : List String
  deriving DecidableEq, Repr

def ResolutionError.message (e : ResolutionError) : String :=
  "Unable to resolve import \"" ++ e.specifier ++ "\" from \"" ++ e.importer ++ "\". Tried " ++
    commaList (e.tried.map fun t => "\"" ++ t ++ "\"") ++ "."

/-- What keeps a JSON text from being read as a value of some type: it is malformed, it ends too
early, or it is a value of another type. -/
inductive JsonFault where
  | malformed | unfinished | mismatch
  deriving DecidableEq, Repr

def JsonFault.name : JsonFault → String
  | .malformed => "syntax"
  | .unfinished => "eof"
  | .mismatch => "data"

inductive Error where
  | indexNotFound (folders tried : List String)
  | resolution (e : ResolutionError)
  | chunkCount (count : Nat)
  | unresolvedImports (imports : List String)
  | transpile (e : TranspileError)
  | evaluation (message : String) (stack : Option String)
  | bundle (e : BundleError)
  | store (path message : String)
  | settingsUnreadable (path message : String)
  | settingsMalformed (path : String) (fault : JsonFault)
  | io (message : String)
  | other (message : String)
  deriving DecidableEq, Repr

namespace Error

/-- The code of an error, which does not change with its text. -/
def code : Error → String
  | .indexNotFound _ _ => "INDEX_NOT_FOUND"
  | .resolution _ => "RESOLUTION_ERROR"
  | .chunkCount _ => "BUNDLE_CHUNK_COUNT"
  | .unresolvedImports _ => "UNRESOLVED_IMPORT"
  | .transpile e => e.code
  | .evaluation _ _ => "IMPORT_EVALUATION_ERROR"
  | .bundle e => e.code
  | .store _ _ => "STORE_ERROR"
  | .settingsUnreadable _ _ => "CONFIG_READ_ERROR"
  | .settingsMalformed _ _ => "CONFIG_PARSE_ERROR"
  | .io _ => "IO_ERROR"
  | .other _ => "ERROR"

def message : Error → String
  | .indexNotFound folders tried =>
    "Index file not found in " ++ commaList folders ++ " (tried: " ++ commaList tried ++ ")"
  | .resolution e => e.message
  | .chunkCount n => "Expected a single bundled chunk, got " ++ toString n
  | .unresolvedImports imports => "Bundle has unresolved imports: " ++ commaList imports
  | .transpile e => e.message
  | .evaluation m _ => "Module evaluation failed: " ++ m
  | .bundle e => e.message
  | .store path m => "Document store error at " ++ path ++ ": " ++ m
  | .settingsUnreadable path m => "Failed to read config at " ++ path ++ ": " ++ m
  | .settingsMalformed path fault => "Failed to parse config at " ++ path ++ ": " ++ fault.name
  | .io m => "IO error: " ++ m
  | .other m => m

/-- The place in the code that the error points to, if it has one. -/
def stack : Error → Option String
  | .evaluation _ s => s
  | .transpile e => e.diagnostics.head?
  | _ => none

end Error

end LiveNotes
