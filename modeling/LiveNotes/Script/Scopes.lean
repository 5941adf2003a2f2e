import LiveNotes.Script.Tree

/-! The names that declarations bind, and those that statements bind: those of `var` in the function or
module around them, all others in the list of statements they stand in. -/

namespace LiveNotes.Script

mutual

/-- The names that a pattern binds, from left to right. -/
def boundNames : Tree → List String
  | .node label _ ks =>
    match label with
    | .binding x => [x]
    | .bindingProperty .. => match ks with
      | [_, p] => boundNames p
      | _ => []
    | .withDefault => match ks with
      | [p, _] => boundNames p
      | _ => []
    | .decoratedParam => match ks with
      | [_, p] => boundNames p
      | _ => []
    | .objectPattern | .arrayPattern | .rest | .fieldParam => boundNamesAll ks
    | _ => []

def boundNamesAll : List Tree → List String
  | [] => []
  | t :: ts => boundNames t ++ boundNamesAll ts

end

/-- The names that a declaration binds in the scope around it. -/
def declaredNames (t : Tree) : List String :=
  match t with
  | .node (.variableList _) _ ds => ds.flatMap fun d => match d with
    | .node .declarator _ [p, _] => boundNames p
    | _ => []
  | .node (.functionDecl _) _ (name :: _) | .node .classDecl _ (name :: _)
  | .node .enumDecl _ (name :: _) => boundNames name
  | _ => []

theorem boundNamesAll_append (ts us : List Tree) :
    boundNamesAll (ts ++ us) = boundNamesAll ts ++ boundNamesAll us := by
  induction ts with
  | nil => simp [boundNamesAll]
  | cons t ts ih => simp [boundNamesAll, ih]

mutual

/-- The names that `var` declarations bind in the function around a tree. -/
def varNames : Tree → List String
  | .node label span ks =>
    match label with
    | .variableList .var => declaredNames (.node label span ks)
    | .function _ | .functionDecl _ | .arrow _ | .classExpr | .classDecl | .staticBlock
    | .namespaceDecl => []
    | _ => varNamesAll ks

def varNamesAll : List Tree → List String
  | [] => []
  | t :: ts => varNames t ++ varNamesAll ts

end

/-- The local name of a part of an import. -/
def importedName (t : Tree) : Option String :=
  match t.label with
  | .importDefault x | .importAll x | .importName _ x _ => some x
  | _ => none

mutual

/-- The names of the functions that stand alone behind a label or in a branch of a statement. They
are bound around it. -/
def aloneNames : Tree → List String
  | .node label span ks =>
    match label with
    | .functionDecl _ => declaredNames (.node label span ks)
    | .labeled _ | .ifElse | .whileLoop | .doWhile => aloneNamesAll ks
    | _ => []

def aloneNamesAll : List Tree → List String
  | [] => []
  | t :: ts => aloneNames t ++ aloneNamesAll ts

end

/-- The names that a statement binds in its list of statements. -/
def lexicalNames (t : Tree) : List String :=
  match t with
  | .node (.importDecl ..) _ ks => ks.filterMap importedName
  | .node .exportDecl _ [d] => declaredNames d
  | .node .exportDefault _ [d] => declaredNames d
  | .node (.functionDecl _) _ _ => declaredNames t
  | _ => declaredNames t ++ aloneNames t

/-- The names that statements bind around themselves. -/
def blockNames (statements : List Tree) : List String := statements.flatMap lexicalNames

/-- The names that the statements of a function or module bind in it. -/
def bodyNames (statements : List Tree) : List String :=
  varNamesAll statements ++ blockNames statements

/-- The names that a part of a script with the given label and parts binds for these parts. -/
def scopeNames (label : Label) (ks : List Tree) : List String :=
  match label with
  | .program | .functionBody | .staticBlock => bodyNames ks
  | .block => blockNames ks
  | .function _ => (ks.take 1).flatMap boundNames ++ ((ks.drop 1).take 1).flatMap paramNames
  | .functionDecl _ => ((ks.drop 1).take 1).flatMap paramNames
  | .arrow _ => (ks.take 1).flatMap paramNames
  | .classExpr | .classDecl | .catchClause => (ks.take 1).flatMap boundNames
  | .forLoop | .forIn | .forOf _ | .withStatement =>
    (ks.take 1).flatMap lexicalNames ++ (ks.drop 1).flatMap aloneNames
  | .switchStatement => (ks.drop 1).flatMap fun c => blockNames (c.kids.drop 1)
  | _ => []
where
  paramNames (params : Tree) : List String := boundNamesAll params.kids

end LiveNotes.Script
