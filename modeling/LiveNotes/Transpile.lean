import LiveNotes.Error
import LiveNotes.Script.Plain
import LiveNotes.Script.Printer
import LiveNotes.Transpile.Lookup

/-! Scripts with types and markup as plain modules, in which imports are read from the registry of
modules and free names from a scope. -/

namespace LiveNotes.Transpile

open Script Text

/-- The last name in the path of a file, as its parts between dots. A path that ends in `..` has
none. -/
def fileParts (file : String) : List (List Char) :=
  let names := (splitChar '/' file.toList).filter fun n => !(n.isEmpty || n == ['.'])
  match names.getLast? with
  | none => []
  | some name => if name == ['.', '.'] then [] else splitChar '.' name

/-- The name of a file without its last extension. -/
def fileStem (file : String) : String :=
  match (fileParts file).reverse with
  | [] => "unknown"
  | [name] => String.ofList name
  | [extension, []] => String.ofList ('.' :: extension)
  | _ :: before => ".".intercalate (before.reverse.map String.ofList)

/-- The languages of a file with the given extension, which may only describe what is found
elsewhere; a file with no known one may hold types and markup. -/
def kindOfExtension (extension : String) (describes : Bool) : SourceKind :=
  match extension with
  | "js" => ⟨⟨false, false⟩, .detected, false⟩
  | "mjs" => ⟨⟨false, false⟩, .always, false⟩
  | "cjs" => ⟨⟨false, false⟩, .never, false⟩
  | "jsx" => ⟨⟨false, true⟩, .detected, false⟩
  | "ts" => ⟨⟨true, false⟩, .detected, describes⟩
  | "mts" => ⟨⟨true, false⟩, .always, describes⟩
  | "cts" => ⟨⟨true, false⟩, .never, describes⟩
  | "tsx" => ⟨⟨true, true⟩, .detected, false⟩
  | _ => ⟨⟨true, true⟩, .always, false⟩

/-- The languages of a file. A dot in front of a name starts no extension. -/
def sourceKind (file : String) : SourceKind :=
  match (fileParts file).reverse with
  | [] | [_] | [_, []] => kindOfExtension "" false
  | extension :: before =>
    kindOfExtension (String.ofList extension) ((before.take 2).contains ['d'])

/-- The script in plain form, printed. -/
def lower (source : String) (options : Options) : Except TranspileError String :=
  let kind := sourceKind options.file
  match parse kind source with
  | none => .error { fault := .parse, file := options.file, diagnostics := ["Unexpected token"] }
  | some script =>
    match toPlain? kind (fileStem options.file) options.globals.markupSource script with
    | none => .error { fault := .transform, file := options.file, diagnostics := ["No plain form"] }
    | some plain => .ok (print plain.tree plain.comments)

/-- Plain code in which imports are read from the registry and free names from the scope. -/
def withLookups (code : String) (options : Options) : Except TranspileError String :=
  match parse .plainModule code with
  | none => .error { fault := .parse, file := options.file, diagnostics := ["Unexpected token"] }
  | some script => .ok (Edit.apply code (scriptLookups options code script.tree))

/-- A script as a plain module that finds its surroundings through the globals of `options`. -/
def transpile (source : String) (options : Options) : Except TranspileError String := do
  let plain ← lower source options
  if plain.toList.all fun c => isBlank c || isLineEnd c then
    throw { fault := .empty, file := options.file }
  withLookups plain options

/-- A module that gives the value of an expression when it is called. -/
def expressionModule (code : String) : String := "export default () => " ++ code

/-- A module that gives markup when it is called. -/
def markupModule (markup : String) : String :=
  "export default () => \x7b return (<>" ++ markup ++ "</>); \x7d;"

end LiveNotes.Transpile
