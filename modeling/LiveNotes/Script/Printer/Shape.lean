import LiveNotes.Script.Printer.Output
import LiveNotes.Script.Tree

/-! What stands around the parts of a tree, by its shape: braces, marks, keywords, keys and operators. The
text of the parts themselves is given. -/

namespace LiveNotes.Script.Printer

open Emit

/-! ### Operators

Operators as text, and how tightly they bind: an expression needs parentheses where a part of a higher
level is expected. -/

namespace Level

def lowest : Nat := 0
def comma : Nat := 1
def yield : Nat := 3
def assign : Nat := 4
def conditional : Nat := 5
def coalesce : Nat := 6
def or : Nat := 7
def and : Nat := 8
def bitOr : Nat := 9
def bitXor : Nat := 10
def bitAnd : Nat := 11
def equals : Nat := 12
def compare : Nat := 13
def shift : Nat := 14
def add : Nat := 15
def multiply : Nat := 16
def power : Nat := 17
def unary : Nat := 18
def postfix_ : Nat := 19
def new : Nat := 20
def call : Nat := 21

end Level

def binaryLevel : BinaryOp → Nat
  | .equal | .notEqual | .strictEqual | .strictNotEqual => Level.equals
  | .less | .lessEqual | .greater | .greaterEqual | .isIn | .instanceOf => Level.compare
  | .shiftLeft | .shiftRight | .shiftRightZero => Level.shift
  | .add | .subtract => Level.add
  | .multiply | .divide | .remainder => Level.multiply
  | .power => Level.power
  | .bitOr => Level.bitOr
  | .bitXor => Level.bitXor
  | .bitAnd => Level.bitAnd

def logicalLevel : LogicalOp → Nat
  | .coalesce => Level.coalesce
  | .or => Level.or
  | .and => Level.and

def binaryText : BinaryOp → String
  | .equal => "=="
  | .notEqual => "!="
  | .strictEqual => "==="
  | .strictNotEqual => "!=="
  | .less => "<"
  | .lessEqual => "<="
  | .greater => ">"
  | .greaterEqual => ">="
  | .shiftLeft => "<<"
  | .shiftRight => ">>"
  | .shiftRightZero => ">>>"
  | .add => "+"
  | .subtract => "-"
  | .multiply => "*"
  | .divide => "/"
  | .remainder => "%"
  | .power => "**"
  | .bitOr => "|"
  | .bitXor => "^"
  | .bitAnd => "&"
  | .isIn => "in"
  | .instanceOf => "instanceof"

def logicalText : LogicalOp → String
  | .coalesce => "??"
  | .or => "||"
  | .and => "&&"

def assignText : AssignOp → String
  | .plain => "="
  | .binary op => binaryText op ++ "="
  | .logical op => logicalText op ++ "="

/-! ### Shapes -/

/-- What surrounds an expression and forbids parts of it to stand there without parentheses. -/
structure Surroundings where
  noCall : Bool := false
  noIn : Bool := false

def exportedName (n : ExportedName) : Emit :=
  if n.quoted then quoted n.text false else text n.text

def keyword (k : VariableKind) : String :=
  match k with
  | .var => "var"
  | .letKind => "let"
  | .const => "const"
  | .using => "using"
  | .awaitUsing => "await using"

/-! ### Shapes of trees -/

/-- Whether an `else` behind the statement would belong to an `if` inside it. -/
def endsInOpenIf : Tree → Bool
  | .node .ifElse _ [_, _] => true
  | .node .ifElse _ [_, _, e] => endsInOpenIf e
  | .node .forLoop _ [_, _, _, b] => endsInOpenIf b
  | .node .forIn _ [_, _, b] => endsInOpenIf b
  | .node (.forOf _) _ [_, _, b] => endsInOpenIf b
  | .node .whileLoop _ [_, b] => endsInOpenIf b
  | .node .withStatement _ [_, b] => endsInOpenIf b
  | .node (.labeled _) _ [b] => endsInOpenIf b
  | _ => false

/-- A property whose value is a variable of the same name needs no key. -/
def omitsKey (key value : Tree) (computed : Bool) : Bool :=
  match key.label with
  | .name k => !computed && k != "__proto__" && value.unparen.label == .read k
  | _ => false

/-- Whether a key is a number too large to be written with digits, which leaves its name. -/
def isInfinite (key : Tree) : Bool :=
  match key.label with
  | .number digits => numberValue digits == .infinity false
  | _ => false

/-- As `omitsKey`, for a pattern with or without a default. -/
def omitsPatternKey (key value : Tree) (computed : Bool) : Bool :=
  match key.label with
  | .name k =>
    !computed && (match value with
      | .node (.binding x) _ _ | .node .withDefault _ (.node (.binding x) _ _ :: _) => x == k
      | _ => false)
  | _ => false

/-- As `omitsKey`, for what is assigned to: a default needs the key, unless the text omits it too. -/
def omitsTargetKey (key value : Tree) (computed shorthand : Bool) : Bool :=
  match key.label with
  | .name k => shorthand || (!computed && k != "__proto__" && value.label == .target k)
  | _ => false

def isBlock (t : Tree) : Bool := t.label == .block

def isMixed (t : Tree) : Bool := t.label == .logical .or || t.label == .logical .and

/-- Whether a logical operand of `??` must keep its parentheses. -/
def operandLevel (op : LogicalOp) (side : Tree) (level : Nat) : Nat :=
  if op == .coalesce && isMixed side.unparen then Level.unary else level

/-! ### Frames -/

/-- Braces, with every part on lines of its own unless there are none. -/
def braces (oneLine : Bool) (inside : Emit) : Emit :=
  if oneLine then all [text "\x7b", inside, text "\x7d"]
  else all [text "\x7b\n", indented inside, margin, text "\x7d"]

/-- Braces around the body of a function, which ends at `stop`, and the comments before its end. -/
def bodyBraces (empty : Bool) (stop : Nat) (inside : Emit) : Emit := fun o =>
  let (cs, o) := o.takeComments (stop - 1)
  let oneLine := empty && cs.all fun c => !(c.newlineBefore || c.newlineAfter)
  braces oneLine (all [inside, leadingComments cs,
    when (!cs.isEmpty) fun o => { o with inLine := false }]) o

/-- Marks what follows as the start of a statement. -/
def startStatement : Emit := fun o => { o with statementStart := o.length }

def startDefault : Emit := fun o => { o with defaultStart := o.length }

def startBody : Emit := fun o => { o with bodyStart := o.length }

def atStatement (o : Output) : Bool := o.statementStart == o.length

def atDefault (o : Output) : Bool := o.defaultStart == o.length

def atBody (o : Output) : Bool := o.bodyStart == o.length

/-- The dot of an access; it must not make a fraction of a whole number. -/
def accessMark (optional : Bool) : Emit := fun o =>
  if optional then text "?." o
  else all [when (o.numberStop == o.length && o.length != 0) (char ' '), char '.'] o

/-- What says that a call has no effect. -/
def pureMark : Emit := text "/* @__PURE__ */ "

/-- What says that the calls of a function have no effect. -/
def pureFunctionMark : Emit := text "/* @__NO_SIDE_EFFECTS__ */"

/-- The line in front of a declaration of a function whose calls have no effect. -/
def declarationMark (t : Tree) : Emit :=
  match t with
  | .node (.functionDecl f) _ _ => when f.pure (all [margin, pureFunctionMark, newline])
  | .node .exportDecl _ [.node (.functionDecl f) _ _]
  | .node .exportDefault _ [.node (.functionDecl f) _ _] =>
    when f.pure (all [pureFunctionMark, newline])
  | _ => nothing

/-- The names that an import binds, and the word `from`. -/
def importedNames (kids : List Tree) : Emit :=
  let names := kids.filter fun k => match k.label with
    | .importAttributes .. => false
    | _ => true
  let listed := names.filter fun k => match k.label with
    | .importName .. => true
    | _ => false
  let whole := names.filter fun k => match k.label with
    | .importDefault _ | .importAll _ => true
    | _ => false
  let one (k : Tree) : Emit := match k.label with
    | .importDefault x => text x
    | .importAll x => text ("* as " ++ x)
    | .importName imported x _ =>
      if !imported.quoted && imported.text == x then text x
      else all [exportedName imported, text (" as " ++ x)]
    | _ => nothing
  let joined (ks : List Tree) : Emit := fun o =>
    (ks.foldl (fun (o, first) k => (one k (if first then o else text ", " o), false)) (o, true)).1
  all [char ' ', joined whole, when (!whole.isEmpty && !listed.isEmpty) (text ", "),
    if listed.isEmpty then when whole.isEmpty (text "\x7b\x7d")
    else all [text "\x7b ", joined listed, text " \x7d"], text " from"]

/-- The attributes of a module's source, if it has some. -/
def attributesText (kids : List Tree) : Emit := fun o =>
  kids.foldl (fun o k => match k.label with
    | .importAttributes w entries =>
      let one (e : ExportedName × String) : Emit :=
        all [exportedName e.1, text ": ", quoted e.2 false]
      let inside : Emit := fun o =>
        (entries.foldl (fun (o, first) e => (one e (if first then o else text ", " o), false))
          (o, true)).1
      if entries.isEmpty then text (" " ++ w ++ " \x7b\x7d") o
      else all [text (" " ++ w ++ " \x7b "), inside, text " \x7d"] o
    | _ => o) o

/-- The names in a list of exports, each with the comments in front of it. -/
def exportNames (first : Bool) : List Tree → Emit
  | [] => when (!first) (char ' ')
  | t :: ts =>
    match t.label with
    | .exportName n e _ =>
      all [text (if first then " " else ", "), nameComments t.span.start, exportedName n,
        when (n.text != e.text) (all [text " as ", exportedName e]), exportNames false ts]
    | _ => exportNames first ts

/-- A key, in brackets when it is computed. -/
def keyOf (computed : Bool) (k : Emit) : Emit :=
  if computed then all [char '[', k, char ']'] else k

/-- Arguments in parentheses: `lines` has each on a line of its own, for when a comment stands in
front of one, and `inLine` has all of them in one line. -/
def argumentsOf (stop : Nat) (args : List Tree) (lines inLine : Emit) : Emit := fun o =>
  let lastComment := o.hasComments (stop - 1)
  if lastComment || args.any (fun a => o.hasComments a.span.start) then
    all [char '(', indented (all [lines, if lastComment then argumentComments (stop - 1) else newline]),
      margin, char ')'] o
  else all [char '(', inLine, char ')'] o

/-- The brackets of an array pattern; a rest alone stands apart from them. -/
def arrayPatternText (parts : List Tree) (inside : Emit) : Emit :=
  let restAlone := match parts with
    | [p] => p.label == .rest
    | _ => false
  all [char '[', when restAlone (char ' '), inside, char ']']

/-- How far an import goes, as the word behind `import`. -/
def phaseWord (phase : ImportPhase) : Option String :=
  match phase with
  | .evaluation => none
  | .source => some "source"
  | .defer => some "defer"

/-- Whether a decorator stands behind its mark without parentheses: a name, an access, or a call of
one. -/
def isBareDecorator : Tree → Bool
  | .node (.read _) _ _ | .node (.member _ _) _ _ | .node (.privateMember _ _) _ _ => true
  | .node (.call _ _) _ (f :: _) => isBareDecorator f
  | _ => false

/-- The string that a statement is, in parentheses or not. -/
def stringStatement? (t : Tree) : Option (String × Bool) :=
  match t with
  | .node .expressionStatement _ [e] => match e.unparen.label with
    | .string v surrogates => some (v, surrogates)
    | _ => none
  | _ => none

/-- A declaration of variables with its keyword. -/
def variablesOf (k : VariableKind) (declarators : Emit) : Emit :=
  all [word (keyword k), char ' ', declarators]

/-- A statement with the comments in front of it. -/
def statementOf (t : Tree) (inside : Emit) : Emit :=
  match t.label with
  | .erased .. | .hole => nothing
  | .hashbang _ => inside
  | _ => all [commentsAt t.span.start, declarationMark t, margin, inside]

/-- The statement that a branch or loop runs, as a block and as any other statement. -/
def branchOf (t : Tree) (asBlock asStatement : Emit) : Emit :=
  match t.label with
  | .block => all [char ' ', asBlock, newline]
  | .emptyStatement => semicolon
  | _ => all [fun o => { o with inLine := true }, statementOf t asStatement]

/-- The statement in front of the test of a loop, as a block and as any other statement. -/
def doBody (t : Tree) (asBlock asStatement : Emit) : Emit :=
  match t.label with
  | .block => all [char ' ', asBlock, char ' ']
  | .emptyStatement => all [semicolon, margin]
  | _ => all [newline, indented (statementOf t asStatement), margin]

/-- The word, and perhaps the value, in front of a case. -/
def caseHead (test : Tree) (value : Emit) : Emit :=
  if test.isHole then text "default:" else all [text "case ", value, char ':']

/-- What a loop declares or assigns to. -/
def loopHeadOf (t : Tree) (declarators pattern : Emit) : Emit :=
  match t.label with
  | .variableList k => variablesOf k declarators
  | _ => pattern

end LiveNotes.Script.Printer
