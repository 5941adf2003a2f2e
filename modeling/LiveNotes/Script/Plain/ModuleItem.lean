import LiveNotes.Script.Grammar.Program
import LiveNotes.Script.Plain.Lowering
import LiveNotes.Script.Scopes

/-! The imports and exports of a script without those of types. Whether a name stands for a type only
is decided by all that the script declares under it. -/

namespace LiveNotes.Script.Plain

/-- A declared name, when the tree is a binding. -/
def nameOf (t : Tree) : String :=
  match t.label with
  | .binding x => x
  | _ => ""

mutual

/-- Whether a part of a namespace leaves something of it when types are left out; its name does not. -/
def isInstantiating : Tree → Bool
  | .node label _ ks =>
    match label with
    | .binding _ | .importAlias | .importRequire _ => false
    | .erased _ names => names.any (·.sense != .type)
    | .namespaceDecl => anyInstantiating ks
    | .exportDecl => match ks with
      | [.node .importAlias _ _] | [.node (.importRequire _) _ _] => true
      | [d] => isInstantiating d
      | _ => true
    | _ => true

def anyInstantiating : List Tree → Bool
  | [] => false
  | t :: ts => isInstantiating t || anyInstantiating ts

end

/-! ### What names stand for -/

/-- What a part of an import gives a name to. -/
def importSense (typeOnly : Bool) (part : Tree) : Option DeclaredName :=
  match part.label with
  | .importName _ x only => some ⟨x, if typeOnly || only then .type else .imported⟩
  | .importDefault x | .importAll x => some ⟨x, if typeOnly then .type else .imported⟩
  | _ => none

/-- What a declaration gives names to. -/
def declarationSenses (t : Tree) : List DeclaredName :=
  match t with
  | .node (.erased _ names) _ _ => names
  | .node (.importDecl _ _ _ typeOnly) _ ks => ks.filterMap (importSense typeOnly)
  | .node .namespaceDecl _ (name :: _) =>
    [⟨nameOf name, if isInstantiating t then .value else .type⟩]
  | .node .importAlias _ (name :: _) | .node (.importRequire _) _ (name :: _) =>
    [⟨nameOf name, .imported⟩]
  | _ => (declaredNames t).map (⟨·, .value⟩)

/-- What an item of a script gives names to outside of the functions and blocks in it. -/
def itemSenses (t : Tree) : List DeclaredName :=
  (match t with
    | .node .exportDecl _ [d] | .node .exportDefault _ [d] => declarationSenses d
    | _ => declarationSenses t) ++ (varNames t ++ aloneNames t).map (⟨·, .value⟩)

/-- Whether a name has no value of the script's own: it stands for types only, or all that is said
about it describes a value elsewhere. -/
def isDescribed (senses : List DeclaredName) (name : String) : Bool :=
  let own := senses.filter (·.name == name)
  !own.isEmpty && (own.all (·.sense == .type) || own.all (·.sense == .ambient))

/-! ### Imports and exports -/

/-- Whether a specifier of an import binds a value. -/
def keepsImport (t : Tree) : Bool :=
  match t.label with
  | .importName _ _ typeOnly => !typeOnly
  | _ => true

/-- Whether a specifier of an export gives a value, where `described` tells the names without one. -/
def keepsExport (described : String → Bool) (t : Tree) : Bool :=
  match t.label with
  | .exportName n _ typeOnly => !typeOnly && (n.quoted || !described n.text)
  | _ => true

def isSpecifier (t : Tree) : Bool :=
  match t.label with
  | .importAttributes .. => false
  | _ => true

/-- A list of exports without those of types; `none` when none are left of some. -/
def plainExportList (described : String → Bool) (source : Option String) (span : Span)
    (ks : List Tree) : Option Tree :=
  let kept := ks.filter (keepsExport (if source.isNone then described else fun _ => false))
  if ks.any isSpecifier && !(kept.any isSpecifier) then none
  else some (.node (.exportList source false) span kept)

/-- An item of a script without what stands for types; `none` when it stands for nothing else. -/
def plainItem? (described : String → Bool) (t : Tree) : Option Tree :=
  match t with
  | .node (.importDecl phase source bare typeOnly) span ks =>
    let kept := ks.filter keepsImport
    if typeOnly then none
    else some (.node (.importDecl phase source
      (bare || (ks.any isSpecifier && !(kept.any isSpecifier))) false) span kept)
  | .node (.exportList source typeOnly) span ks =>
    if typeOnly then none else plainExportList described source span ks
  | .node (.exportAll _ _ true) _ _ => none
  | .node .exportDefault _ [.node (.erased ..) _ _] => none
  | .node .exportDefault _ [.node (.read x) _ _] => if described x then none else some t
  | .node (.erased true _) _ _ | .node .exportAsNamespace _ _ => none
  | _ => some t

/-- Whether `name` stands for a value among the names `before`; those that other modules give count
only if `importsCount` is set. -/
def isDeclared (before : List DeclaredName) (importsCount : Bool) (name : String) : Bool :=
  before.any fun n => n.name == name && match n.sense with
    | .type => false
    | .imported => importsCount
    | .ambient | .value => true

theorem isDescribed_nil (name : String) : isDescribed [] name = false := rfl

end LiveNotes.Script.Plain
