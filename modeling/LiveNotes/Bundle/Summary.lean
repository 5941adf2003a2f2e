import LiveNotes.Bundle.Analysis
import LiveNotes.Bundle.Graph
import LiveNotes.Json.Value

/-! What is found in modules and how they are loaded together, as JSON. -/

namespace LiveNotes.Bundle

def ImportedName.toJson (n : ImportedName) : Json := .texts [n.imported, n.here]

def Import.toJson (i : Import) : Json :=
  .object [("specifier", .text i.specifier), ("dynamic", .bool i.dynamic),
    ("names", .array (i.names.map ImportedName.toJson))]

/-- The name of a kind of item, and what it holds. -/
def LinkKind.fields : LinkKind → List (String × Json)
  | .importNames s names =>
    [("type", .text "import"), ("specifier", .text s), ("names", .array (names.map (·.toJson)))]
  | .reExport s names =>
    [("type", .text "reExport"), ("specifier", .text s), ("names", .array (names.map (·.toJson)))]
  | .exportStar s asName =>
    [("type", .text "exportStar"), ("specifier", .text s), ("alias", .optionalText asName)]
  | .defaultExpr semicolonAt =>
    [("type", .text "defaultExpr"), ("semicolonAt", .ofOption (semicolonAt.map .nat))]
  | .remove => [("type", .text "remove")]
  | .dynamicImport s => [("type", .text "dynamicImport"), ("specifier", .text s)]

def LinkItem.toJson (item : LinkItem) : Json :=
  .object (item.kind.fields ++ [("start", .nat item.span.start), ("end", .nat item.span.stop)])

def Analysis.toJson (a : Analysis) : Json :=
  .object [("imports", .array (a.imports.map Import.toJson)),
    ("items", .array (a.items.map LinkItem.toJson)),
    ("exports", .array (a.exports.map fun (name, expression) => .texts [name, expression]))]

def Chunk.toJson (c : Chunk) : Json :=
  .object [("id", .nat c.id), ("name", .text c.name), ("modules", .array (c.modules.map .nat)),
    ("entry", .nat c.entry), ("isEntry", .bool c.isEntry),
    ("dependencies", .array (c.dependencies.map .nat))]

/-- Chunks, with the ids of those that are loaded first and those that are loaded later. -/
def chunksJson (chunks : List Chunk) : Json :=
  .object [("chunks", .array (chunks.map Chunk.toJson)),
    ("async", .array ((chunks.filter (!·.isEntry)).map fun c => .nat c.id)),
    ("main", .ofOption ((chunks.find? (·.isEntry)).map fun c => .nat c.id)),
    ("splits", .bool (1 < chunks.length)), ("len", .nat chunks.length),
    ("empty", .bool chunks.isEmpty)]

end LiveNotes.Bundle
