import LiveNotes.Script.Grammar.Pattern
import LiveNotes.Script.Plain.Enumeration
import LiveNotes.Script.Plain.Lowering
import LiveNotes.Script.Plain.ModuleItem
import LiveNotes.Script.Scopes

/-! Scripts without types: what only describes types is left out, and enumerations, namespaces and
parameters that declare fields become plain statements. -/

namespace LiveNotes.Script.Plain

/-! Namespaces as functions that are called with an object, which they give what is exported. -/

/-- Where a statement stands. -/
structure Site where
  /-- Whether it stands at the top of the script. -/
  top : Bool := false
  exported : Bool := false
  /-- The variable that holds the namespace around it, if there is one. -/
  space : Option String := none
  deriving Repr

/-- Whether namespaces have a plain form there. -/
def Site.holdsNamespaces (site : Site) : Bool := site.top || site.space.isSome

/-- What a statement there gives names to. -/
def Site.senses (site : Site) (t : Tree) : List DeclaredName :=
  if t.label == .namespaceDecl && !site.holdsNamespaces then [] else itemSenses t

/-- The statement that gives a namespace, held by `space`, the values of variables. -/
def exportTo (space : String) (names : List String) : Tree :=
  let sets := names.map fun x => assignOf (propertyOf space x) (readOf x)
  statementOf ⟨0, 0⟩ (match sets with
    | [e] => e
    | _ => new .sequence sets)

/-- The declaration of constants that are exported from the namespace held by `space`. -/
def exportConstants (space : String) (t : Tree) : List Tree :=
  match t with
  | .node (.variableList kind) span ds =>
    let plain := ds.all fun d => match d with
      | .node .declarator _ [p, _] => !(Grammar.isPatternTree p)
      | _ => false
    if plain then
      [.node (.variableList kind) span (ds.map fun d => match d with
        | .node .declarator s [.node (.binding x) bs bk, v] =>
          if v.isHole then d
          else .node .declarator s [.node (.binding x) bs bk, assignOf (propertyOf space x) v]
        | _ => d)]
    else [t, exportTo space (declaredNames t)]
  | _ => [t]

/-- The argument that a namespace of the name `x` is called with: the object that it had before, or a
new one, which the namespace around it gets as well when `outer` holds that. -/
def namespaceObject (outer : Option String) (x : String) : Tree :=
  let empty := new (.object false) []
  let made := match outer with
    | none => empty
    | some space =>
      let slot := propertyOf space x
      orOf slot (new .paren [assignOf slot empty])
  orOf (readOf x) (new .paren [assignOf (targetOf x) made])

/-- The statements for a namespace of a name and a plain body: its variable unless its name is among
those declared `before`, then its function, whose parameter is `inner`. -/
def namespaceStatements (site : Site) (before : List DeclaredName) (span : Span) (inner : String) :
    List Tree → List Tree
  | [] | [_] => []
  | name :: body =>
    let x := nameOf name
    let own := variableOf .letKind ⟨0, 0⟩ x noTree
    let outer := if site.exported then site.space else none
    let head := if isDeclared before false x then []
      else if site.exported && outer.isNone then [new .exportDecl [own]] else [own]
    head ++ [statementOf span
      (new (.call false false) [functionOf inner body, namespaceObject outer x])]

/-- The statements for an exported declaration `typed`, whose plain form is `plain`. -/
def exportStatements (site : Site) (span : Span) (typed plain : List Tree) :
    Lowering (List Tree) := do
  match typed with
  | [.node .enumDecl _ _] | [.node .namespaceDecl _ _] | [.node .importAlias _ _]
  | [.node (.importRequire _) _ _] => pure plain
  | _ => match site.space, plain with
    | none, _ => pure [.node .exportDecl span plain]
    | some space, [.node (.variableList kind) s ds] =>
      if kind != .const then fail
      pure (exportConstants space (.node (.variableList kind) s ds))
    | some space, [d] => pure [d, exportTo space (declaredNames d)]
    | some _, _ => pure plain

/-! Parameters of a constructor that also declare fields, as plain parameters whose values the
constructor's body gives to the fields. -/

/-- Whether a statement is a call of the constructor of the superclass. -/
def isSuperCall : Tree → Bool
  | .node .expressionStatement _ [.node (.call _ _) _ (f :: _)] => f.label == .superRef
  | _ => false

/-- The names of the fields that the parameters of a method's function declare. -/
def fieldNames (kids : List Tree) : List String :=
  kids.flatMap fun k => match k with
    | .node (.function _) _ [_, .node .params _ ps, _] => ps.flatMap fun p => match p with
      | .node .fieldParam _ _ | .node .decoratedParam _ [_, .node .fieldParam _ _] => boundNames p
      | _ => []
    | _ => []

def isDirective (t : Tree) : Bool :=
  match t.label with
  | .directive _ => true
  | _ => false

/-- The statements in front of which fields get their values: those up to the last call of the
superclass's constructor if there is one, else the directives. -/
def beforeFields (body : List Tree) : List Tree :=
  if body.any isSuperCall then (body.reverse.dropWhile (!isSuperCall ·)).reverse
  else body.takeWhile isDirective

/-- The statements of a constructor that also gives its fields their values. -/
def withFields (fields : List String) (body : List Tree) : List Tree :=
  let sets := fields.map fun x =>
    statementOf ⟨0, 0⟩ (assignOf (new (.member x false) [new .thisRef []]) (readOf x))
  let front := beforeFields body
  front ++ sets ++ body.drop front.length

/-- Gives a constructor's function the statements for its fields. -/
def constructorFunction (fields : List String) : Tree → Tree
  | .node (.function f) s [n, ps, .node .functionBody bs body] =>
    .node (.function f) s [n, ps, .node .functionBody bs (withFields fields body)]
  | t => t

mutual

/-- A tree whose constructors have plain parameters. -/
def setFields : Tree → Tree
  | .node label span ks =>
    let parts := setFieldsAll ks
    match label with
    | .fieldParam => parts.headD noTree
    | .method .constructor _ _ =>
      .node label span (parts.map (constructorFunction (fieldNames ks)))
    | _ => .node label span parts

def setFieldsAll : List Tree → List Tree
  | [] => []
  | t :: ts => setFields t :: setFieldsAll ts

end

theorem setFieldsAll_eq_map (ts : List Tree) : setFieldsAll ts = ts.map setFields := by
  induction ts with
  | nil => rfl
  | cons t ts ih => simp [setFieldsAll, ih]

/-! ### Statements that only describe types -/

/-- The statements for an enumeration of a name and members, as they are written and in plain form. -/
def enumStatements (site : Site) (before : List DeclaredName) (span : Span) (written plain : List Tree) :
    Lowering (List Tree) := do
  let x := nameOf (plain.headD noTree)
  let members := enumMembers (written.drop 1) (plain.drop 1)
  let again := isDeclared before true x
  match site.exported, site.space with
  | true, some space =>
    let t ← enumeration ⟨false, false, again⟩ span x members
    pure [t, exportTo space [x]]
  | exported, _ => return [← enumeration ⟨exported, site.top, again⟩ span x members]

/-- The call that reads a module's exports. -/
def requireOf (source : String) : Tree :=
  new (.call false false) [readOf "require", textOf source]

/-- The variable for an import that has a name of its own, inside an export if it is exported. -/
def aliasStatements (site : Site) (kind : VariableKind) (span : Span) (name value : Tree) :
    List Tree :=
  let t := variableOf kind span (nameOf name) value
  [if site.exported then .node .exportDecl span [t] else t]

/-- Whether a statement holds others that it runs, next to expressions. -/
def runsOthers (label : Label) : Bool :=
  match label with
  | .ifElse | .forLoop | .forIn | .forOf _ | .whileLoop | .doWhile | .withStatement | .labeled _ => true
  | _ => false

/-- The parts of a statement that runs others. One that is left out becomes an empty block, unless it
is the alternate of a test. -/
def filledParts (label : Label) (parts : List (List Tree)) : List Tree :=
  let filled (part : List Tree) : List Tree := if part.isEmpty then [new .block []] else part
  match label, parts with
  | .ifElse, [test, yes, no] => test ++ filled yes ++ no
  | _, _ => parts.flatMap filled

mutual

/-- What stands for a tree when types are left out; `before` holds the names that are declared in
front of it. -/
def erase (site : Site) (before : List DeclaredName) : Tree → Lowering (List Tree)
  | .node label span kids =>
    match label with
    | .erased .. | .exportAsNamespace => pure []
    | .typed _ => eraseAll {} [] kids
    | .quotedModule => do
      if site.holdsNamespaces then fail
      pure []
    | .enumDecl => do enumStatements site before span kids (← eraseAll {} [] kids)
    | .namespaceDecl =>
      if site.holdsNamespaces && anyInstantiating kids then do
        let inner ← fresh (nameOf (kids.headD noTree))
        return namespaceStatements site before span inner
          (← eraseAll { space := some inner } [] kids)
      else pure []
    | .exportDecl => do
      exportStatements site span kids (← eraseAll { site with exported := true } before kids)
    | .exportDefault => do
      let parts ← eraseAll {} [] kids
      pure (if parts.isEmpty then [] else [.node label span parts])
    | .importAlias => match kids with
      | [name, entity] => pure (aliasStatements site .var span name entity)
      | _ => pure []
    | .importRequire source =>
      pure (aliasStatements site .const span (kids.headD noTree) (requireOf source))
    | .exportAssign => do
      let e ← eraseAll {} [] kids
      pure [statementOf span
        (assignOf (new (.member "exports" false) [readOf "module"]) (e.headD noTree))]
    | _ =>
      if runsOthers label then return [.node label span (filledParts label (← eraseEach kids))]
      else return [.node label span (← eraseAll {} [] kids)]

/-- As `erase`, for statements that stand behind each other, or for the parts of a tree. -/
def eraseAll (site : Site) (before : List DeclaredName) : List Tree → Lowering (List Tree)
  | [] => pure []
  | t :: ts => do
    let first ← erase site before t
    return first ++ (← eraseAll site (site.senses t ++ before) ts)

/-- As `erase`, for each of the parts of a tree apart. -/
def eraseEach : List Tree → Lowering (List (List Tree))
  | [] => pure []
  | t :: ts => do
    let first ← erase {} [] t
    return first :: (← eraseEach ts)

end

/-- The items of a script without types. A module stays one, if need be by an empty list of exports. -/
def eraseProgram (items : List Tree) : Lowering (List Tree) := do
  let described := isDescribed (items.flatMap itemSenses)
  let kept := items.filterMap (plainItem? described)
  let plain ← eraseAll { top := true } [] (setFieldsAll kept)
  if (← get).isModule && kept.length < items.length && !(plain.any isModuleItem) then
    pure (plain ++ [new (.exportList none false) []])
  else pure plain

end LiveNotes.Script.Plain
