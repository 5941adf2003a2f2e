import LiveNotes.Script.MarkupText
import LiveNotes.Script.Plain.Lowering

/-! Elements of markup as calls of helpers. The helpers are imported in the order of their first
use, where the expressions inside of an element come before the element itself. -/

namespace LiveNotes.Script.Plain

/-- The variable that holds what is named `word`, which is made for the first use. -/
def helperVariable (word : String) : Lowering String := do
  match (← get).helpers.lookup word with
  | some x => pure x
  | none =>
    let x ← fresh word
    modify fun m => { m with helpers := m.helpers ++ [(word, x)] }
    pure x

/-- A helper of markup. Modules import each helper, scripts the whole library that holds it. -/
def helper (word : String) : Lowering Tree := do
  if (← get).isModule then return readOf (← helperVariable word)
  else
    let library := if word == "createElement" then "react" else "reactJsxRuntime"
    return new (.member word false) [readOf (← helperVariable library)]

/-- Whether a property sets the prototype of its object instead of a property of its own. -/
def setsPrototype (t : Tree) : Bool :=
  match t with
  | .node (.property .value false false) _ (key :: _) => match key.label with
    | .name k | .string k _ => k == "__proto__"
    | _ => false
  | _ => false

def isKeyAttribute (t : Tree) : Bool := t.label == .attribute "key"

def isSpread (t : Tree) : Bool := t.label == .spread

/-- Whether some attributes are spread in front of a key. -/
def keyFollowsSpread (attributes : List Tree) : Bool :=
  (attributes.dropWhile (!isSpread ·)).any isKeyAttribute

/-- The key of a property named like an attribute. -/
def attributeKey (name : String) : Tree :=
  if isIdentifierName name then new (.name name) [] else textOf name

/-- The property for an attribute with a plain value; more than one for an object that is spread. -/
def attributeProperties (t : Tree) : List Tree :=
  match t with
  | .node (.attribute name) span [value] =>
    [.node (.property .value false false) span [attributeKey name, value]]
  | .node .spread span [.node (.object comma) os ps] =>
    if ps.any setsPrototype then [.node .spread span [.node (.object comma) os ps]] else ps
  | .node .spread span [e] => [.node .spread span [e]]
  | _ => []

def attributeValueOf (t : Tree) : Option Tree := t.kids.head?

/-- The argument for a list of children: none, the only one, or all of them. -/
def childrenProperty (cs : List Tree) : List Tree :=
  let property (value : Tree) : List Tree :=
    [new (.property .value false false) [new (.name "children") [], value]]
  match cs with
  | [] => []
  | [c] => property (if isSpread c then new (.array false) cs else c)
  | _ => property (new (.array false) cs)

/-- The call for an element of plain parts. -/
def elementCall (span : Span) (type : Tree) (attributes children : List Tree) : Lowering Tree := do
  if keyFollowsSpread attributes then
    let callee ← helper "createElement"
    let properties := attributes.flatMap attributeProperties
    pure (.node (.call false true) span
      (callee :: type :: new (.object false) properties :: children))
  else
    let keys := (attributes.filter isKeyAttribute).filterMap attributeValueOf
    let others := (attributes.filter (!isKeyAttribute ·)).flatMap attributeProperties
    let callee ← helper (if children.length > 1 then "jsxs" else "jsx")
    pure (.node (.call false true) span
      ([callee, type, new (.object false) (others ++ childrenProperty children)] ++ keys.getLast?.toList))

mutual

/-- What stands for an element, an attribute, a child or a name whose inner expressions are plain. -/
def build : Tree → Lowering (List Tree)
  | .node label span ks =>
    match label with
    | .element => do
      match ← buildAll ks with
      | type :: .node .attributes _ attributes :: children =>
        return [← elementCall span type attributes children]
      | children =>
        let type ← helper "Fragment"
        return [← elementCall span type [] children]
    | .tagName text => pure [.node (.string text false) span []]
    | .qualifiedName _ _ => do
      fail
      pure [noTree]
    | .attributes => return [.node .attributes span (← buildAll ks)]
    | .attribute name => do
      if name == "key" && ks.all Tree.isHole then fail
      let value := (← buildAll ks).headD (new (.boolLiteral true) [])
      pure [.node (.attribute name) span [value]]
    | .markupText raw =>
      pure ((markupValue? raw).map fun s => .node (.string s false) span []).toList
    | .braced => pure ks
    | .hole => pure []
    | _ => pure [.node label span ks]

def buildAll : List Tree → Lowering (List Tree)
  | [] => pure []
  | t :: ts => do
    let first ← build t
    return first ++ (← buildAll ts)

end

/-- A string in quotes as the value of an attribute, before the element is built. -/
def plainAttribute : Tree → Tree
  | .node (.attribute name) span [.node (.markupText raw) s _] =>
    .node (.attribute name) span [.node (.string (attributeText raw) false) s []]
  | t => t

mutual

/-- A tree without elements. Inside of an element, the elements right below it are left to it. -/
def lowerMarkup (inside : Bool) : Tree → Lowering Tree
  | .node label span ks => do
    match label with
    | .element =>
      let t := Tree.node .element span (← lowerMarkupAll true ks)
      if inside then pure t else return (← build t).headD noTree
    | .attributes => return .node label span ((← lowerMarkupAll true ks).map plainAttribute)
    | .attribute _ => return .node label span (← lowerMarkupAll true ks)
    | _ => return .node label span (← lowerMarkupAll false ks)

def lowerMarkupAll (inside : Bool) : List Tree → Lowering (List Tree)
  | [] => pure []
  | t :: ts => return (← lowerMarkup inside t) :: (← lowerMarkupAll inside ts)

end

/-- The statements that provide the helpers in use, of which `source` is the library. -/
def helperStatements (source : String) : Lowering (List Tree) := do
  let m ← get
  let runtime := source ++ "/jsx-runtime"
  if m.isModule then
    let importOf (from_ : String) (hs : List (String × String)) : List Tree :=
      if hs.isEmpty then [] else [new (.importDecl .evaluation from_ false false)
        (hs.map fun (word, x) => new (.importName ⟨word, false⟩ x false) [])]
    let (elements, others) := m.helpers.partition (·.1 == "createElement")
    let first := importOf source elements
    let second := importOf runtime others
    pure (if (m.helpers.map (·.1)).head? == some "createElement" then first ++ second
      else second ++ first)
  else
    let requireOf (h : String × String) : Tree :=
      let from_ := if h.1 == "react" then source else runtime
      variableOf .var ⟨0, 0⟩ h.2 (new (.call false false) [readOf "require", textOf from_])
    let (elements, others) := m.helpers.partition (·.1 == "react")
    pure ((elements ++ others).map requireOf)

def isImport (t : Tree) : Bool :=
  match t.label with
  | .importDecl .. => true
  | _ => false

/-- Statements without elements, and with the imports of their helpers behind other imports. -/
def lowerItems (source : String) (items : List Tree) : Lowering (List Tree) := do
  let plain ← lowerMarkupAll false items
  let imports := plain.takeWhile isImport
  return imports ++ (← helperStatements source) ++ plain.drop imports.length

end LiveNotes.Script.Plain
