import LiveNotes.Bundle.Graph
import LiveNotes.Edit
import LiveNotes.Transpile.Import

/-! A chunk as one module: each of its modules is a function that runs at most once, when it is first
asked for. What it exports is read through functions, so that its importers see the values of the
moment. -/

namespace LiveNotes.Bundle

open Text Transpile

/-- What each chunk starts with: the table of its modules and the ways to them. -/
def chunkHead : String := "\n".intercalate
  ["const __modules = \x7b\x7d;",
    "const __cache = \x7b\x7d;",
    "function __require(id) \x7b",
    "  const cached = __cache[id];",
    "  if (cached !== undefined) return cached.exports;",
    "  const module = \x7b exports: \x7b\x7d \x7d;",
    "  __cache[id] = module;",
    "  __modules[id](module, module.exports, __require);",
    "  return module.exports;",
    "\x7d",
    "function __export(target, getters) \x7b",
    "  for (const name in getters) \x7b",
    "    Object.defineProperty(target, name, \x7b enumerable: true, get: getters[name] \x7d);",
    "  \x7d",
    "\x7d",
    "function __exportStar(target, source) \x7b",
    "  for (const name in source) \x7b",
    "    if (name !== \x22default\x22 && !Object.prototype.hasOwnProperty.call(target, name)) \x7b",
    "      Object.defineProperty(target, name, \x7b enumerable: true, get: () => source[name] \x7d);",
    "    \x7d",
    "  \x7d",
    "\x7d",
    ""]

/-- The expression for the exports of a module of the chunk. -/
def requireText (index : Nat) : String := "__require(" ++ toString index ++ ")"

/-- The variable for the exports of the external module with the given number. -/
def externalName (number : Nat) : String := "__ext" ++ toString number

/-- The variable for the module that the export with the given number takes names from. -/
def reExportName (number : Nat) : String := "__re" ++ toString number

def bindText (name value : String) : String := "const " ++ name ++ " = " ++ value ++ ";"

/-- The number of an external module in the list of those so far, which it is added to. -/
def numberOf (externals : List String) (specifier : String) : Nat × List String :=
  match externals.idxOf? specifier with
  | some n => (n, externals)
  | none => (externals.length, externals ++ [specifier])

namespace ModuleGraph

/-- The expression for the exports of what `specifier` stands for in the module `importer`. -/
def target (g : ModuleGraph) (importer specifier : String) (externals : List String) :
    String × List String :=
  match g.resolve? importer specifier with
  | some index => (requireText index, externals)
  | none =>
    let (n, externals) := numberOf externals specifier
    (externalName n, externals)

end ModuleGraph

/-- The statements that bind imported names. -/
def importText (target : String) (names : List ImportedName) : String :=
  let properties := (names.filter (·.imported != "*")).map fun n =>
    destructureProperty n.imported n.here
  let first := if properties.isEmpty then []
    else ["const \x7b " ++ ", ".intercalate properties ++ " \x7d = " ++ target ++ ";"]
  let others := (names.filter (·.imported == "*")).map fun n => bindText n.here target
  if (first ++ others).isEmpty then target ++ ";" else " ".intercalate (first ++ others)

/-- The part of a module that is linked so far. -/
structure Linked where
  edits : List Edit := []
  /-- Exported names with the expressions for their values. -/
  getters : List (String × String)
  /-- How many modules names were taken from. -/
  sources : Nat := 0
  /-- The specifiers of all external modules. -/
  externals : List String

namespace Linked

def edit (l : Linked) (span : Script.Span) (text : String) : Linked :=
  { l with edits := l.edits ++ [⟨span.start, span.stop, text⟩] }

/-- Binds the module that names are exported from to a new variable. -/
def bindSource (l : Linked) (span : Script.Span) (target : String)
    (getters : String → List (String × String)) : Linked :=
  let name := reExportName l.sources
  { l.edit span (bindText name target) with
    getters := l.getters ++ getters name, sources := l.sources + 1 }

/-- Links one item of the module `importer`. -/
def add (g : ModuleGraph) (importer : String) (l : Linked) (item : LinkItem) : Linked :=
  match item.kind with
  | .importNames specifier names =>
    let (target, externals) := g.target importer specifier l.externals
    { l with externals := externals }.edit item.span (importText target names)
  | .reExport specifier names =>
    let (target, externals) := g.target importer specifier l.externals
    { l with externals := externals }.bindSource item.span target fun source =>
      names.map fun (n : ImportedName) => (n.here, source ++ "[" ++ quoted n.imported ++ "]")
  | .exportStar specifier asName =>
    let (target, externals) := g.target importer specifier l.externals
    let l := { l with externals := externals }
    match asName with
    | some name => l.bindSource item.span target fun source => [(name, source)]
    | none => l.edit item.span ("__exportStar(exports, " ++ target ++ ");")
  | .defaultExpr semicolonAt =>
    let l := l.edit item.span ("const " ++ defaultBinding ++ " = ")
    match semicolonAt with
    | some at_ => l.edit ⟨at_, at_⟩ ";"
    | none => l
  | .remove => l.edit item.span ""
  | .dynamicImport specifier =>
    match g.resolve? importer specifier with
    | some index => l.edit item.span ("Promise.resolve().then(() => " ++ requireText index ++ ")")
    | none => l

end Linked

/-- The path of a module of the vault, and the id of another one. -/
def displayId (id : String) : String := (Path.ofModuleId? id).getD id

/-- The statement that registers what a module exports, if there is anything. -/
def gettersText (getters : List (String × String)) : String :=
  if getters.isEmpty then ""
  else "__export(exports, \x7b " ++
    ", ".intercalate (getters.map fun (name, value) => quoted name ++ ": () => " ++ value) ++ " \x7d);\n"

namespace ModuleGraph

/-- A module with all its items linked. -/
def link (g : ModuleGraph) (externals : List String) (m : Module) : Linked :=
  m.analysis.items.foldl (Linked.add g m.id) { getters := m.analysis.exports, externals := externals }

/-- The function for the module with the given index, and the external modules with its own. -/
def moduleText (g : ModuleGraph) (externals : List String) (index : Nat) : String × List String :=
  match g.get? index with
  | none => ("", externals)
  | some m =>
    let l := g.link externals m
    let body := String.ofList (dropEnd isWhiteSpace (Edit.apply m.source l.edits).toList)
    ("// " ++ displayId m.id ++ "\n__modules[" ++ toString index ++
      "] = function (module, exports, __require) \x7b\n" ++ gettersText l.getters ++ body ++
      "\n\x7d;\n", l.externals)

/-- The functions for some modules, and the external modules that they need. -/
def bodyText (g : ModuleGraph) : List Nat → List String → String × List String
  | [], externals => ("", externals)
  | i :: indices, externals =>
    let (text, externals) := g.moduleText externals i
    let (rest, externals) := bodyText g indices externals
    (text ++ rest, externals)

end ModuleGraph

/-! ### What the chunk exports -/

/-- The names found so far, and the external modules all of whose names are exported. -/
structure ExportedNames where
  visited : List Nat := []
  names : List String := []
  stars : List String := []
  deriving DecidableEq, Repr

namespace ExportedNames

/-- Adds a name once; `default` counts only in the entry. -/
def add (isEntry : Bool) (e : ExportedNames) (name : String) : ExportedNames :=
  if (isEntry || name != "default") && !e.names.contains name then
    { e with names := e.names ++ [name] }
  else e

end ExportedNames

namespace ModuleGraph

/-- Collects the names that an item of the module `importer` exports; `collect` goes on with a module all
of whose names it passes on. -/
def collectItem (g : ModuleGraph) (isEntry : Bool) (importer : String)
    (collect : ExportedNames → Nat → ExportedNames) (e : ExportedNames) (item : LinkItem) :
    ExportedNames :=
  match item.kind with
  | .reExport _ names => (names.map (·.here)).foldl (ExportedNames.add isEntry) e
  | .exportStar _ (some asName) => e.add isEntry asName
  | .exportStar specifier none =>
    match g.resolve? importer specifier with
    | some target => collect e target
    | none => if isEntry then { e with stars := e.stars ++ [specifier] } else e
  | _ => e

/-- Collects the names that a module exports, its own and those of the modules it passes on. -/
def collectExports (g : ModuleGraph) : Nat → Bool → ExportedNames → Nat → ExportedNames
  | 0, _, e, _ => e
  | fuel + 1, isEntry, e, index =>
    if e.visited.contains index then e
    else
      let e := { e with visited := index :: e.visited }
      match g.get? index with
      | none => e
      | some m =>
        let own := (m.analysis.exports.map (·.1)).foldl (ExportedNames.add isEntry) e
        m.analysis.items.foldl (g.collectItem isEntry m.id (collectExports g fuel false)) own

/-- What a chunk with the given entry exports. Each module is visited once, so its size bounds the
depth. -/
def exportedBy (g : ModuleGraph) (entry : Nat) : ExportedNames :=
  g.collectExports (g.size + 2) true {} entry

end ModuleGraph

/-- The variable for the exported name with the given number. -/
def exportedName (number : Nat) : String := "__x" ++ toString number

/-- The statement that binds an exported name of the entry. -/
def entryNameText (name : String) (number : Nat) : String :=
  bindText (exportedName number) ("__entry[" ++ quoted name ++ "]") ++ "\n"

/-- An exported name in a list of them. -/
def exportedText (name : String) (number : Nat) : String :=
  exportedName number ++ " as " ++ (if Script.isIdentifierName name then name else quoted name)

/-- The statement that exports names of the entry, if there are any. -/
def exportListText (names : List String) : String :=
  if names.isEmpty then ""
  else "export \x7b " ++ ", ".intercalate (names.zipIdx.map fun (name, n) => exportedText name n) ++ " \x7d;\n"

/-- The statement that exports all names of an external module. -/
def starText (specifier : String) : String := "export * from " ++ quoted specifier ++ ";\n"

/-- The statements that bind the exports of the entry and export its names. -/
def namesText (entry : Nat) (names : List String) : String :=
  bindText "__entry" (requireText entry) ++ "\n" ++
    String.join (names.zipIdx.map fun (name, n) => entryNameText name n) ++ exportListText names

namespace ModuleGraph

/-- The statements that export what the entry exports. -/
def exportsText (g : ModuleGraph) (entry : Nat) : String :=
  let e := g.exportedBy entry
  namesText entry e.names ++ String.join (e.stars.map starText)

/-- The import of an external module under its number. -/
def externalText (specifier : String) (number : Nat) : String :=
  "import * as " ++ externalName number ++ " from " ++ quoted specifier ++ ";\n"

/-- The code of a chunk with the given modules, which exports what `entry` exports. -/
def chunkText (g : ModuleGraph) (modules : List Nat) (entry : Nat) : String :=
  let (body, externals) := g.bodyText modules []
  String.join (externals.zipIdx.map fun (s, n) => externalText s n) ++ chunkHead ++ body ++
    g.exportsText entry

end ModuleGraph

end LiveNotes.Bundle
