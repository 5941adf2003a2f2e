import LiveNotes.Edit
import LiveNotes.Script.Scopes
import LiveNotes.Transpile.Import

/-! Names that a script reads and does not bind, as reads from a scope. -/

namespace LiveNotes.Transpile

open Script Text

structure Options where
  /-- The name of the file; its extension tells the language. -/
  file : String := "fragment.tsx"
  /-- Whether all imports from packages are read from the registry. -/
  registerImports : Bool := false
  /-- The id of the scope in which free names are looked up, if they are. -/
  scope : Option String := none
  globals : RuntimeGlobals := {}
  deriving Repr, Inhabited

/-- The read of a name that the scope `id` may hold. -/
def lookupText (lookup id name : String) : String :=
  let scope := lookup ++ "(" ++ quoted id ++ ")"
  let key := quoted name
  "(" ++ scope ++ ".has(" ++ key ++ ") ? " ++ scope ++ ".get(" ++ key ++ ") : " ++ name ++ ")"

/-- What is known where a part of a script stands. -/
structure Surroundings where
  options : Options
  source : List Char
  /-- The names in `export .. from`, which belong to other modules. -/
  reexported : List String
  /-- The names that the script binds. -/
  bound : List String := []
  /-- Keys that the statements around take apart under other names. -/
  aliases : List String := []

namespace Surroundings

def bind (s : Surroundings) (names : List String) : Surroundings :=
  { s with bound := names ++ s.bound }

/-- What stands for the read of a name, if it is free. -/
def lookup? (s : Surroundings) (name : String) : Option String :=
  match s.options.scope with
  | none => none
  | some id =>
    if s.bound.contains name || s.options.globals.isHostGlobal name || s.reexported.contains name ||
      s.aliases.contains name then none
    else some (lookupText s.options.globals.scopeLookup id name)

/-- Whether the test of a conditional is that of a lookup that was put in before. -/
def isLookup (s : Surroundings) (test : Span) : Bool :=
  match afterStart? s.options.globals.scopeLookup.toList (byteSlice test.start test.stop s.source) with
  | some ('(' :: _) => true
  | _ => false

end Surroundings

/-- The keys that a list of statements takes apart under other names. -/
def aliasKeys (statements : List Tree) : List String :=
  statements.flatMap fun t => match t with
    | .node (.variableList _) _ ds => ds.flatMap fun d => match d with
      | .node .declarator _ (.node .objectPattern _ ps :: _) => ps.filterMap fun p => match p with
        | .node (.bindingProperty false _) _ [key, .node (.binding x) _ _] =>
          match key.label with
          | .name k | .string k _ => if k == x then none else some k
          | _ => none
        | _ => none
      | _ => []
    | _ => []

/-- The names in the lists of `export .. from`. -/
def reexportedNames (items : List Tree) : List String :=
  items.flatMap fun t => match t with
    | .node (.exportList (some _) _) _ ks => ks.flatMap fun k => match k.label with
      | .exportName n e _ => [n.text, e.text]
      | _ => []
    | _ => []

def isUndefinedText (t : Tree) : Bool :=
  match t.label with
  | .string "undefined" _ => true
  | _ => false

/-- The name whose type is asked for. -/
def typeofName (t : Tree) : Option String :=
  match t with
  | .node (.unary .typeof) _ [.node (.read x) _ _] => some x
  | _ => none

/-- The name that a test compares the type of with `"undefined"`. -/
def guardedName (test : Tree) : Option String :=
  match test with
  | .node (.binary op) _ [l, r] =>
    if op == .equal || op == .notEqual || op == .strictEqual || op == .strictNotEqual then
      if isUndefinedText r then typeofName l
      else if isUndefinedText l then typeofName r
      else none
    else none
  | _ => none

/-- Whether a tree is the read of the guarded name. -/
def isGuarded (name : Option String) (t : Tree) : Bool :=
  match t.label, name with
  | .read x, some y => x == y
  | _, _ => false

/-- What is known in the parts of a tree with the given label and parts. -/
def Surroundings.inside (s : Surroundings) (label : Label) (ks : List Tree) : Surroundings :=
  let s := s.bind (scopeNames label ks)
  match label with
  | .program | .functionBody | .block => { s with aliases := aliasKeys ks }
  | _ => s

mutual

/-- The edits for the free names and the imports in a tree. -/
def lookups (s : Surroundings) : Tree → List Edit
  | .node label span ks =>
    match label with
    | .read x => ((s.lookup? x).map (Edit.mk span.start span.stop)).toList
    | .importDecl _ source _ _ =>
      if isRegistered s.options.globals s.options.registerImports source then
        [⟨span.start, span.stop,
          registryRead s.options.globals.moduleRegistry source ks⟩]
      else []
    | .property _ _ true => match ks with
      | [_, .node (.read x) _ _] =>
        ((s.lookup? x).map fun text => Edit.mk span.start span.stop (x ++ ": " ++ text)).toList
      | _ => lookupsAll s ks
    | .unary .typeof => match ks with
      | [.node (.read _) _ _] => []
      | _ => lookupsAll s ks
    | .conditional => match ks with
      | [test, yes, no] =>
        if s.isLookup test.span then []
        else
          let name := guardedName test
          lookups s test ++ (if isGuarded name yes then [] else lookups s yes) ++
            (if isGuarded name no then [] else lookups s no)
      | _ => []
    | .switchStatement => match ks with
      | value :: cases => lookups s value ++ lookupsAll (s.inside label ks) cases
      | [] => []
    | .classExpr | .classDecl => match ks with
      | [name, super, body, decorators] =>
        let inner := s.inside label ks
        lookups inner name ++ lookups inner super ++ lookups inner body ++ lookups s decorators
      | _ => []
    | .arrow _ => match ks with
      | [params, body] =>
        let s := s.inside label ks
        lookups s params ++ lookups { s with aliases := [] } body
      | _ => []
    | _ => lookupsAll (s.inside label ks) ks

def lookupsAll (s : Surroundings) : List Tree → List Edit
  | [] => []
  | t :: ts => lookups s t ++ lookupsAll s ts

end

/-- The edits for a whole script with the given text. -/
def scriptLookups (options : Options) (source : String) (script : Tree) : List Edit :=
  lookups ⟨options, source.toList, reexportedNames script.kids, [], []⟩ script

end LiveNotes.Transpile
