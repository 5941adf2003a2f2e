/-! The trees that scripts are read into. Every node has a label, which says what it is and holds
all data that is no part of its own, the span of bytes it was read from, and its parts in the order
of the text. A part that may be left out is a `hole`. -/

namespace LiveNotes.Script

/-- The bytes from `start` up to, not including, `stop`. -/
structure Span where
  start : Nat
  stop : Nat
  deriving DecidableEq, Repr, Inhabited

inductive UnaryOp where
  | minus | plus | not | bitNot | typeof | void | delete
  deriving DecidableEq, Repr

inductive BinaryOp where
  | equal | notEqual | strictEqual | strictNotEqual
  | less | lessEqual | greater | greaterEqual
  | shiftLeft | shiftRight | shiftRightZero
  | add | subtract | multiply | divide | remainder | power
  | bitOr | bitXor | bitAnd | isIn | instanceOf
  deriving DecidableEq, Repr

inductive LogicalOp where
  | or | and | coalesce
  deriving DecidableEq, Repr

/-- A plain assignment, or one that combines the old value with the new. -/
inductive AssignOp where
  | plain
  | binary (op : BinaryOp)
  | logical (op : LogicalOp)
  deriving DecidableEq, Repr

inductive PropertyKind where
  | value | method | getter | setter
  deriving DecidableEq, Repr

inductive MethodKind where
  | constructor | method | getter | setter
  deriving DecidableEq, Repr

inductive VariableKind where
  | var | letKind | const | using | awaitUsing
  deriving DecidableEq, Repr

/-- A name of a module's export: an identifier, or any text in quotes. -/
structure ExportedName where
  text : String
  quoted : Bool
  deriving DecidableEq, Repr, Inhabited

/-- What a function is; `enclosed` when the text puts it in parentheses of its own, `pure` when its
calls are said to have no effect. -/
structure FunctionForm where
  isAsync : Bool := false
  isGenerator : Bool := false
  enclosed : Bool := false
  pure : Bool := false
  deriving DecidableEq, Repr, Inhabited

/-- As `FunctionForm`, for an arrow function; `concise` when its body is an expression. -/
structure ArrowForm where
  isAsync : Bool := false
  concise : Bool := false
  enclosed : Bool := false
  pure : Bool := false
  deriving DecidableEq, Repr, Inhabited

/-- How far an import goes: the module is run, only loaded, or run when it is first used. -/
inductive ImportPhase where
  | evaluation | source | defer
  deriving DecidableEq, Repr, Inhabited

/-- What is said about the type of an expression: that it has one, that it is no null, or with which
arguments it is generic. -/
inductive TypeMark where
  | assertion | nonNull | arguments
  deriving DecidableEq, Repr

/-- What a declaration gives a name to: a type, a value that exists elsewhere, a value of the script's
own, or what another module gives. -/
inductive NameSense where
  | type | ambient | value | imported
  deriving DecidableEq, Repr

structure DeclaredName where
  name : String
  sense : NameSense
  deriving DecidableEq, Repr

/-- The labels; behind each one stand the parts of its nodes. -/
inductive Label where
  /-- A part that is left out. -/
  | hole
  /-- An identifier that is read. -/
  | read (name : String)
  /-- An identifier that is assigned to. -/
  | target (name : String)
  /-- An identifier that a declaration binds. -/
  | binding (name : String)
  /-- The name of a property. -/
  | name (text : String)
  | privateName (text : String)
  | nullLiteral
  | boolLiteral (value : Bool)
  /-- A number, as the digits it is written with. -/
  | number (digits : String)
  | bigint (digits : String)
  /-- A string by its value; a lone surrogate stands as U+FFFD and its four hexadecimal digits when
  `surrogates` is set. -/
  | string (value : String) (surrogates : Bool)
  | regex (pattern flags : String)
  /-- Raw text between the substitutions of a template. -/
  | quasi (raw : String)
  /-- quasi, expression, quasi, .. -/
  | template
  /-- tag, template -/
  | taggedTemplate
  | thisRef
  | superRef
  | newTarget
  | importMeta
  /-- elements, of which some may be holes or spreads; `comma` when one ends the list -/
  | array (comma : Bool)
  /-- properties and spreads; `comma` when one ends the list -/
  | object (comma : Bool)
  /-- key, value -/
  | property (kind : PropertyKind) (computed shorthand : Bool)
  /-- name read, default: a property that only an assignment pattern may hold -/
  | coverDefault
  /-- name or hole, params, body -/
  | function (form : FunctionForm)
  /-- name or hole, params, body -/
  | functionDecl (form : FunctionForm)
  /-- params, then a body or, when concise, an expression -/
  | arrow (form : ArrowForm)
  | params
  /-- pattern of a parameter that also declares a field -/
  | fieldParam
  /-- decorators, parameter -/
  | decoratedParam
  /-- directives, then statements -/
  | functionBody
  | directive (raw : String)
  /-- name or hole, superclass or hole, body, decorators -/
  | classExpr
  /-- name or hole, superclass or hole, body, decorators -/
  | classDecl
  | classBody
  | decorators
  /-- key, function, decorators -/
  | method (kind : MethodKind) (isStatic computed : Bool)
  /-- key, value or hole, decorators -/
  | field (isStatic computed : Bool)
  /-- key, value or hole, decorators -/
  | accessor (isStatic computed : Bool)
  /-- statements -/
  | staticBlock
  | unary (op : UnaryOp)
  /-- `decrement` for two minus signs, `before` when they stand before the target -/
  | update (decrement before : Bool)
  | binary (op : BinaryOp)
  /-- object -/
  | privateIn (name : String)
  | logical (op : LogicalOp)
  /-- target, value -/
  | assign (op : AssignOp)
  /-- test, consequent, alternate -/
  | conditional
  /-- callee, arguments; `pure` when marked as free of effects -/
  | call (optional pure : Bool)
  /-- callee, arguments -/
  | new (pure : Bool)
  /-- object -/
  | member (name : String) (optional : Bool)
  /-- object -/
  | privateMember (name : String) (optional : Bool)
  /-- object, key -/
  | index (optional : Bool)
  /-- the outermost expression of a run of optional accesses -/
  | chain
  | sequence
  | spread
  /-- value or hole -/
  | yield (delegate : Bool)
  | await
  /-- source, options -/
  | importCall (phase : ImportPhase)
  | paren
  /-- expression -/
  | typed (mark : TypeMark)
  /-- name or hole, attributes, children -/
  | element
  | attributes
  /-- the name of an element that is no variable -/
  | tagName (text : String)
  | qualifiedName (space text : String)
  /-- value or hole -/
  | attribute (name : String)
  /-- raw text of markup -/
  | markupText (raw : String)
  /-- An expression, or nothing, in braces inside of markup. -/
  | braced
  /-- properties and a rest -/
  | objectPattern
  /-- key, pattern -/
  | bindingProperty (computed shorthand : Bool)
  /-- patterns, holes and a rest -/
  | arrayPattern
  /-- pattern -/
  | rest
  /-- pattern, default -/
  | withDefault
  /-- properties and a rest, assigned to -/
  | objectTarget
  /-- key, target -/
  | targetProperty (computed shorthand : Bool)
  | arrayTarget
  /-- hashbang, directives, statements -/
  | program
  | hashbang (text : String)
  | expressionStatement
  | block
  /-- declarators -/
  | variableList (kind : VariableKind)
  /-- pattern, initial value or hole -/
  | declarator
  /-- test, consequent and perhaps an alternate -/
  | ifElse
  /-- initialisation, test and update, each may be a hole, then the body -/
  | forLoop
  /-- left, object, body -/
  | forIn
  /-- left, iterable, body -/
  | forOf (awaited : Bool)
  | whileLoop
  /-- body, test -/
  | doWhile
  | returnStatement
  | breakStatement (label : Option String)
  | continueStatement (label : Option String)
  | throwStatement
  /-- block, catch clause or hole, final block or hole -/
  | tryStatement
  /-- parameter or hole, block -/
  | catchClause
  /-- value, cases -/
  | switchStatement
  /-- test or hole, statements -/
  | switchCase
  | labeled (name : String)
  | emptyStatement
  | debuggerStatement
  | withStatement
  /-- specifiers, then the attributes; `bare` when no specifier list is written -/
  | importDecl (phase : ImportPhase) (source : String) (bare typeOnly : Bool)
  | importDefault (name : String)
  | importAll (name : String)
  | importName (imported : ExportedName) (name : String) (typeOnly : Bool)
  /-- `withWord` for the keyword, key and value pairs -/
  | importAttributes (withWord : String) (entries : List (ExportedName × String))
  | exportDecl
  /-- specifiers, then the attributes -/
  | exportList (source : Option String) (typeOnly : Bool)
  | exportName (name exported : ExportedName) (typeOnly : Bool)
  | exportAll (asName : Option ExportedName) (source : String) (typeOnly : Bool)
  | exportDefault
  /-- A declaration that only describes something; `exported` when it makes its file a module. -/
  | erased (exported : Bool) (names : List DeclaredName)
  /-- A name for the whole of a module's exports, for scripts that are no modules. -/
  | exportAsNamespace
  /-- name, members -/
  | enumDecl
  /-- initial value or hole -/
  | enumMember (name : String)
  /-- name, statements -/
  | namespaceDecl
  /-- The description of a module by its name in quotes, outside of a declaration file. -/
  | quotedModule
  /-- name, entity -/
  | importAlias
  /-- name -/
  | importRequire (source : String)
  | exportAssign
  deriving DecidableEq, Repr

inductive Tree where
  | node (label : Label) (span : Span) (kids : List Tree)
  deriving Repr

namespace Tree

def label : Tree → Label
  | .node l _ _ => l

def span : Tree → Span
  | .node _ s _ => s

def kids : Tree → List Tree
  | .node _ _ ks => ks

/-- The part that is left out, at `at_`. -/
def hole (at_ : Nat) : Tree := .node .hole ⟨at_, at_⟩ []

instance : Inhabited Tree := ⟨hole 0⟩

def isHole (t : Tree) : Bool := t.label == .hole

mutual

/-- Whether some node of the tree has a label with property `p`. -/
def anyLabel (p : Label → Bool) : Tree → Bool
  | .node l _ ks => p l || anyLabels p ks

def anyLabels (p : Label → Bool) : List Tree → Bool
  | [] => false
  | t :: ts => anyLabel p t || anyLabels p ts

end

/-- The expression inside any parentheses around it. -/
def unparen : Tree → Tree
  | .node .paren _ [e] => unparen e
  | t => t

@[simp] theorem label_node (l : Label) (s : Span) (ks : List Tree) : (node l s ks).label = l := rfl

@[simp] theorem span_node (l : Label) (s : Span) (ks : List Tree) : (node l s ks).span = s := rfl

@[simp] theorem kids_node (l : Label) (s : Span) (ks : List Tree) : (node l s ks).kids = ks := rfl

theorem anyLabels_append (p : Label → Bool) (ts us : List Tree) :
    anyLabels p (ts ++ us) = (anyLabels p ts || anyLabels p us) := by
  induction ts with
  | nil => simp [anyLabels]
  | cons t ts ih => simp [anyLabels, ih, Bool.or_assoc]

theorem anyLabels_eq_false {p : Label → Bool} {ts : List Tree} (h : ∀ t ∈ ts, t.anyLabel p = false) :
    anyLabels p ts = false := by
  induction ts with
  | nil => rfl
  | cons t ts ih =>
    obtain ⟨ht, hts⟩ := List.forall_mem_cons.1 h
    rw [anyLabels, ht, ih hts]
    rfl

end Tree

end LiveNotes.Script
