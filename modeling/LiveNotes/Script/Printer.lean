import LiveNotes.Script.Printer.Shape

/-! The text of a tree. Parentheses stand only where the tree would be read differently without
them, and around functions that had them before; blocks, long objects and long arrays take a line
for each part. -/

namespace LiveNotes.Script

namespace Printer

open Emit

mutual

/-- An expression where operators of `level` and looser ones need parentheses. -/
def expr (level : Nat) (c : Surroundings) : Tree → Emit
  | .node label span kids =>
    match label with
    | .read x | .target x | .name x => word x
    | .privateName x => text ("#" ++ x)
    | .nullLiteral => word "null"
    | .boolLiteral b => word (if b then "true" else "false")
    | .number ds => number ds
    | .bigint ds => bigint ds
    | .string v s => quoted v s
    | .regex p f => regex p f
    | .quasi raw => chars (rawText raw.toList)
    | .template => all [char '\x60', templateParts kids, char '\x60']
    | .taggedTemplate => match kids with
      | [tag, quasi] => all [expr Level.postfix_ {} tag, expr Level.lowest {} quasi]
      | _ => nothing
    | .thisRef => word "this"
    | .superRef => word "super"
    | .newTarget => word "new.target"
    | .importMeta => word "import.meta"
    | .array _ =>
      let long := kids.length > 2
      if long then all [char '[', indented (elements true true kids), newline, margin, char ']']
      else all [char '[', elements false true kids, char ']']
    | .object _ => fun o =>
      let body := if kids.length > 1 then
          all [text "\x7b", indented (properties c true kids), newline, margin, text "\x7d"]
        else if kids.isEmpty then text "\x7b\x7d"
        else all [text "\x7b ", properties c false kids, text " \x7d"]
      parens (atStatement o || atBody o) body o
    | .coverDefault | .withDefault => match kids with
      | [p, v] => all [pattern {} p, text " = ", expr Level.comma {} v]
      | _ => nothing
    | .function f => fun o =>
      parens (atStatement o || atDefault o || f.enclosed)
        (all [when f.pure (all [pureFunctionMark, char ' ']), functionText { c with noCall := false } f kids]) o
    | .functionDecl f => functionText {} f kids
    | .arrow f =>
      parens (level ≥ Level.assign || f.enclosed) (match kids with
        | [ps, body] =>
          all [when f.pure (all [pureFunctionMark, char ' ']), when f.isAsync (all [word "async", char ' ']),
            params c ps, text " => ",
            if f.concise then all [startBody, expr Level.comma c body] else functionBody c body]
        | _ => nothing)
    | .classExpr => fun o => parens (atStatement o || atDefault o) (classText kids) o
    | .classDecl => classText kids
    | .unary op => match kids with
      | [e] =>
        let name := match op with
          | .typeof => "typeof"
          | .void => "void"
          | .delete => "delete"
          | _ => ""
        let mark := match op with
          | .minus => sign "-"
          | .plus => sign "+"
          | .not => text "!"
          | .bitNot => text "~"
          | _ => all [word name, char ' ']
        parens (level ≥ Level.unary) (all [mark, expr Level.power { c with noCall := false } e])
      | _ => nothing
    | .update decrement before => match kids with
      | [e] =>
        let mark := if decrement then "--" else "++"
        if before then
          parens (level ≥ Level.unary) (all [sign mark, expr Level.unary { c with noCall := false } e])
        else parens (level ≥ Level.postfix_) (all [expr Level.postfix_ {} e, text mark])
      | _ => nothing
    | .binary op => match kids with
      | [l, r] =>
        let own := binaryLevel op
        let isPower := op == .power
        let wrapped := level ≥ own || (op == .isIn && c.noIn)
        let noIn := c.noIn && !wrapped
        let leftLevel := if isPower then
            match l.unparen.label with
            | .unary _ => Level.call
            | _ => own
          else own - 1
        let mark := if op == .isIn || op == .instanceOf then word (binaryText op)
          else text (binaryText op)
        parens wrapped (all [expr leftLevel { noIn } l, char ' ', mark, char ' ',
          expr (if isPower then own - 1 else own) { noIn } r])
      | _ => nothing
    | .privateIn x => match kids with
      | [e] => parens (level ≥ Level.compare)
          (all [text ("#" ++ x), text " in ", expr Level.equals { noIn := true } e])
      | _ => nothing
    | .logical op => match kids with
      | [l, r] =>
        let own := logicalLevel op
        let wrapped := level ≥ own
        let noIn := c.noIn && !wrapped
        parens wrapped (all [expr (operandLevel op l (own - 1)) { noIn } l,
          text (" " ++ logicalText op ++ " "), expr (operandLevel op r own) { noIn } r])
      | _ => nothing
    | .assign op => match kids with
      | [t, v] => fun o =>
        let wrapped := t.label == .objectTarget && (atStatement o || atBody o)
        parens (wrapped || level ≥ Level.assign)
          (all [pattern {} t, text (" " ++ assignText op ++ " "), expr Level.comma { c with noCall := false } v]) o
      | _ => nothing
    | .conditional => match kids with
      | [t, y, n] =>
        let wrapped := level ≥ Level.conditional
        let noIn := c.noIn && !wrapped
        parens wrapped (all [expr Level.conditional { noIn } t, text " ? ",
          expr Level.yield {} y, text " : ", expr Level.yield { noIn } n])
      | _ => nothing
    | .call optional isPure => match kids with
      | f :: args => fun o =>
        let statement := atStatement o
        let default_ := atDefault o
        let mark : Emit := when isPure (all [pureMark,
          if default_ then startDefault else when statement startStatement])
        parens (level ≥ Level.new || c.noCall || (isPure && level ≥ Level.postfix_))
          (all [mark,
            when (!isPure) (if default_ then startDefault else when statement startStatement),
            expr Level.postfix_ {} f, when optional (text "?."), argumentsOf span.stop args (commentedList true args) (list Level.comma {} true args)]) o
      | [] => nothing
    | .new isPure => match kids with
      | f :: args =>
        parens (level ≥ Level.call || (isPure && level ≥ Level.postfix_))
          (all [when isPure pureMark, word "new ", expr Level.new { noCall := true } f,
            argumentsOf span.stop args (commentedList true args) (list Level.comma {} true args)])
      | [] => nothing
    | .member x optional => match kids with
      | [e] => all [expr Level.postfix_ { noCall := c.noCall } e, accessMark optional, text x]
      | _ => nothing
    | .privateMember x optional => match kids with
      | [e] => all [expr Level.postfix_ { noCall := c.noCall } e,
          text (if optional then "?.#" else ".#"), text x]
      | _ => nothing
    | .index optional => match kids with
      | [e, k] => all [parens (e.unparen.label == .read "let") (expr Level.postfix_ { noCall := c.noCall } e),
          when optional (text "?."), char '[', expr Level.lowest {} k, char ']']
      | _ => nothing
    | .chain => match kids with
      | [e] => parens (level ≥ Level.postfix_) (expr level c e)
      | _ => nothing
    | .sequence => parens (level ≥ Level.comma) (list Level.lowest { noIn := c.noIn } true kids)
    | .spread | .rest => match kids with
      | [e] => all [text "...", expr Level.comma {} e]
      | _ => nothing
    | .yield delegate => match kids with
      | [e] => parens (level ≥ Level.yield) (all [word "yield", when delegate (char '*'),
          when (!e.isHole) (all [char ' ', expr Level.yield {} e])])
      | _ => nothing
    | .await => match kids with
      | [e] => parens (level ≥ Level.unary) (all [word "await ", expr Level.power c e])
      | _ => nothing
    | .importCall phase => parens (level ≥ Level.new || c.noCall)
        (all [word "import", text ((phaseWord phase).elim "" ("." ++ ·)),
          argumentsOf span.stop kids (commentedList true kids) (list Level.comma {} true kids)])
    | .paren => match kids with
      | [e] => expr level c e
      | _ => nothing
    | .objectPattern =>
      if kids.isEmpty then text "\x7b\x7d" else all [text "\x7b ", patterns {} true kids, text " \x7d"]
    | .objectTarget => all [text "\x7b", patterns {} true kids, text "\x7d"]
    | .arrayPattern => arrayPatternText kids (patterns {} true kids)
    | .arrayTarget => all [char '[', patterns {} true kids, char ']']
    | .binding x => word x
    | _ => nothing

/-- Expressions with commas between them. -/
def list (level : Nat) (c : Surroundings) (first : Bool) : List Tree → Emit
  | [] => nothing
  | t :: ts => all [when (!first) (text ", "), expr level c t, list level c false ts]

/-- Elements of an array, of which some may be left out. -/
def elements (long first : Bool) : List Tree → Emit
  | [] => nothing
  | t :: ts =>
    all [when (!first) (char ','),
      if long then all [newline, margin] else when (!first) (char ' '),
      expr Level.comma {} t,
      when (t.isHole && ts.isEmpty) (char ','),
      elements long false ts]

def properties (c : Surroundings) (long : Bool) : List Tree → Emit
  | [] => nothing
  | t :: ts =>
    all [when long (all [newline, margin]), property c t, when (!ts.isEmpty) (char ','),
      properties c long ts]

def property (c : Surroundings) : Tree → Emit
  | .node label _ kids =>
    match label with
    | .spread => match kids with
      | [e] => all [text "...", expr Level.comma {} e]
      | _ => nothing
    | .property kind computed shorthand => match kids with
      | [k, v] => match kind with
        | .value =>
          let short := omitsKey k v computed || (shorthand && k.label == .name "__proto__")
          all [when (!short) (all [keyOf (computed || isInfinite k) (expr Level.comma {} k), text ": "]),
            expr Level.comma {} v]
        | .method => all [methodHead v, keyOf computed (expr Level.comma {} k), methodTail c v]
        | .getter => all [text "get ", keyOf computed (expr Level.comma {} k), methodTail c v]
        | .setter => all [text "set ", keyOf computed (expr Level.comma {} k), methodTail c v]
      | _ => nothing
    | _ => nothing

/-- The marks in front of the name of a method. -/
def methodHead : Tree → Emit
  | .node (.function f) _ _ => all [when f.isAsync (text "async "), when f.isGenerator (char '*')]
  | _ => nothing

/-- The parameters and body of a method. -/
def methodTail (c : Surroundings) : Tree → Emit
  | .node _ _ kids => match kids with
    | [_, ps, body] => all [params c ps, char ' ', functionBody c body]
    | _ => nothing

def functionText (c : Surroundings) (f : FunctionForm) (kids : List Tree) : Emit :=
  match kids with
  | [name, ps, body] =>
    all [when f.isAsync (all [word "async", char ' ']), word "function",
      when f.isGenerator (text "* "), when (!name.isHole) (expr Level.lowest {} name), params c ps,
      char ' ', functionBody c body]
  | _ => nothing

def params (c : Surroundings) : Tree → Emit
  | .node _ _ kids => all [char '(', patterns c true kids, char ')']

def functionBody (c : Surroundings) : Tree → Emit
  | .node _ span kids => bodyBraces kids.isEmpty span.stop (bodyItems c kids)

/-- The items of a script or of a function's body. A string in front that is no directive gets
parentheses. -/
def bodyItems (c : Surroundings) : List Tree → Emit
  | [] => nothing
  | t :: ts =>
    let item := statementOf t (statementText c t)
    match t.label, stringStatement? t with
    | .hashbang _, _ => all [item, bodyItems c ts]
    | _, some (v, surrogates) => all [parens true (quoted v surrogates), semicolon, statements c ts]
    | _, none => all [item, statements c ts]

def templateParts : List Tree → Emit
  | [] => nothing
  | t :: ts =>
    all [match t.label with
        | .quasi raw => chars (rawText raw.toList)
        | _ => all [text "$\x7b", expr Level.lowest {} t, text "\x7d"],
      templateParts ts]

def commentedList (first : Bool) : List Tree → Emit
  | [] => nothing
  | t :: ts =>
    all [when (!first) (char ','), argumentComments t.span.start, margin, expr Level.comma {} t,
      commentedList false ts]

/-- A pattern, target or parameter. The default of a parameter stands in what surrounds its function;
those inside of a pattern are apart from it. -/
def pattern (c : Surroundings) : Tree → Emit
  | .node label _ kids =>
    match label with
    | .bindingProperty computed _ => match kids with
      | [k, v] =>
        all [when (!omitsPatternKey k v computed) (all [keyOf computed (expr Level.comma {} k), text ": "]),
          pattern {} v]
      | _ => nothing
    | .targetProperty computed shorthand => match kids with
      | [k, v] =>
        all [when (!omitsTargetKey k v computed shorthand)
            (all [keyOf computed (expr Level.comma {} k), text ": "]),
          pattern {} v]
      | _ => nothing
    | .withDefault => match kids with
      | [p, v] => all [pattern {} p, text " = ", expr Level.comma c v]
      | _ => nothing
    | .rest => match kids with
      | [p] => all [text "...", pattern {} p]
      | _ => nothing
    | .decoratedParam => match kids with
      | [ds, p] => all [decoratorTexts ds, pattern c p]
      | _ => nothing
    | .objectPattern =>
      if kids.isEmpty then text "\x7b\x7d" else all [text "\x7b ", patterns {} true kids, text " \x7d"]
    | .objectTarget => all [text "\x7b", patterns {} true kids, text "\x7d"]
    | .arrayPattern => arrayPatternText kids (patterns {} true kids)
    | .arrayTarget => all [char '[', patterns {} true kids, char ']']
    | .hole => nothing
    | .member x optional => match kids with
      | [e] => all [expr Level.postfix_ {} e, accessMark optional, text x]
      | _ => nothing
    | .privateMember x _ => match kids with
      | [e] => all [expr Level.postfix_ {} e, text ".#", text x]
      | _ => nothing
    | .index _ => match kids with
      | [e, k] => all [parens (e.unparen.label == .read "let") (expr Level.postfix_ {} e), char '[',
          expr Level.lowest {} k, char ']']
      | _ => nothing
    | .binding x | .target x | .read x => word x
    | _ => nothing

/-- Patterns with commas between them; one that is left out at the end keeps its comma. -/
def patterns (c : Surroundings) (first : Bool) : List Tree → Emit
  | [] => nothing
  | t :: ts =>
    all [when (!first) (text ", "), pattern c t, when (t.isHole && ts.isEmpty) (char ','),
      patterns c false ts]

def classText (kids : List Tree) : Emit :=
  match kids with
  | [name, super, body, ds] =>
    all [decoratorTexts ds, word "class", when (!name.isHole) (all [char ' ', expr Level.lowest {} name]),
      when (!super.isHole) (all [text " extends ", expr Level.postfix_ {} super]), char ' ',
      classBody body]
  | _ => nothing

def decoratorTexts : Tree → Emit
  | .node _ _ kids => decoratorList kids

def decoratorList : List Tree → Emit
  | [] => nothing
  | t :: ts =>
    all [char '@', parens (!isBareDecorator t) (expr Level.lowest {} t), char ' ', decoratorList ts]

def classBody : Tree → Emit
  | .node _ _ kids => braces kids.isEmpty (members kids)

def members : List Tree → Emit
  | [] => nothing
  | t :: ts => all [commentsAt t.span.start, margin, member t, members ts]

def member : Tree → Emit
  | .node label _ kids =>
    match label with
    | .method kind isStatic computed => match kids with
      | [k, f, ds] =>
        let mark := match kind with
          | .getter => text "get "
          | .setter => text "set "
          | _ => nothing
        all [decoratorTexts ds, when isStatic (text "static "), mark, methodHead f, keyOf computed (expr Level.comma {} k),
          methodTail {} f, newline]
      | _ => nothing
    | .field isStatic computed => match kids with
      | [k, v, ds] => all [decoratorTexts ds, when isStatic (text "static "), keyOf computed (expr Level.comma {} k),
          when (!v.isHole) (all [text " = ", expr Level.comma {} v]), semicolon]
      | _ => nothing
    | .accessor isStatic computed => match kids with
      | [k, v, ds] => all [decoratorTexts ds, when isStatic (text "static "), text "accessor ",
          keyOf computed (expr Level.comma {} k), when (!v.isHole) (all [text " = ", expr Level.comma {} v]), semicolon]
      | _ => nothing
    | .staticBlock => all [text "static ", braces kids.isEmpty (statements {} kids), newline]
    | _ => nothing

def declarators (c : Surroundings) (first : Bool) : List Tree → Emit
  | [] => nothing
  | t :: ts => all [when (!first) (text ", "), declarator c t, declarators c false ts]

def elseIf (c : Surroundings) : Tree → Emit
  | .node _ _ kids => ifText c kids

/-- The declarators in the head of a loop. -/
def loopDeclarators : Tree → Emit
  | .node _ _ ds => declarators { noIn := true } true ds

def declarator (c : Surroundings) : Tree → Emit
  | .node _ _ kids => match kids with
    | [p, v] => all [pattern {} p, when (!v.isHole) (all [text " = ", expr Level.comma c v])]
    | _ => nothing

def statements (c : Surroundings) : List Tree → Emit
  | [] => nothing
  | t :: ts => all [statementOf t (statementText c t), statements c ts]

def blockText (c : Surroundings) : Tree → Emit
  | .node _ _ kids => braces kids.isEmpty (statements c kids)

/-- A conditional statement from its test on. -/
def ifText (c : Surroundings) (kids : List Tree) : Emit :=
  match kids with
  | [t, y] =>
    all [text "if (", expr Level.lowest {} t, char ')', branchOf y (blockText c y) (statementText c y)]
  | [t, y, n] =>
    let no := all [word "else", if n.label == .ifElse then all [char ' ', elseIf c n]
      else branchOf n (blockText c n) (statementText c n)]
    if isBlock y then all [text "if (", expr Level.lowest {} t, text ") ", blockText c y, char ' ', no]
    else if endsInOpenIf y then
      all [text "if (", expr Level.lowest {} t, text ") ", braces false (statementOf y (statementText c y)), char ' ', no]
    else all [text "if (", expr Level.lowest {} t, char ')', branchOf y (blockText c y) (statementText c y), margin, no]
  | _ => nothing

def switchCases (c : Surroundings) : List Tree → Emit
  | [] => nothing
  | t :: ts => all [margin, switchCase c t, switchCases c ts]

def switchCase (c : Surroundings) : Tree → Emit
  | .node _ _ kids => match kids with
    | [test, s] => all [caseHead test (expr Level.lowest {} test),
        branchOf s (blockText c s) (statementText c s)]
    | test :: body => all [caseHead test (expr Level.lowest {} test), newline,
        indented (statements c body)]
    | [] => nothing

/-- A statement without the comments and the space in front of it. -/
def statementText (c : Surroundings) : Tree → Emit
  | .node label _ kids =>
    match label with
    | .expressionStatement => match kids with
      | [e] => all [startStatement, expr Level.lowest {} e, semicolon]
      | _ => nothing
    | .block => all [braces kids.isEmpty (statements c kids), newline]
    | .variableList k => all [variablesOf k (declarators c true kids), semicolon]
    | .functionDecl f => all [functionText { c with noCall := false } f kids, newline]
    | .classDecl => all [classText kids, newline]
    | .ifElse => ifText c kids
    | .forLoop => match kids with
      | [i, t, u, b] => all [text "for (",
          when (!i.isHole)
            (loopHeadOf i (loopDeclarators i) (expr Level.lowest { noIn := true } i)),
          char ';', when (!t.isHole) (all [char ' ', expr Level.lowest {} t]),
          char ';', when (!u.isHole) (all [char ' ', expr Level.lowest {} u]),
          char ')', branchOf b (blockText c b) (statementText c b)]
      | _ => nothing
    | .forIn => match kids with
      | [l, r, b] => all [text "for (", loopHeadOf l (loopDeclarators l) (pattern {} l), text " in ", expr Level.lowest {} r, char ')',
          branchOf b (blockText c b) (statementText c b)]
      | _ => nothing
    | .forOf awaited => match kids with
      | [l, r, b] => all [text (if awaited then "for await (" else "for ("), 
            parens (l.label == .target "async") (loopHeadOf l (loopDeclarators l) (pattern {} l)),
          text " of ", expr Level.comma {} r, char ')', branchOf b (blockText c b) (statementText c b)]
      | _ => nothing
    | .whileLoop => match kids with
      | [t, b] => all [text "while (", expr Level.lowest {} t, char ')', branchOf b (blockText c b) (statementText c b)]
      | _ => nothing
    | .doWhile => match kids with
      | [b, t] =>
        all [text "do", doBody b (blockText c b) (statementText c b), text "while (", expr Level.lowest {} t, char ')', semicolon]
      | _ => nothing
    | .returnStatement => match kids with
      | [e] => all [text "return", when (!e.isHole) (all [char ' ', expr Level.lowest {} e]),
          semicolon]
      | _ => nothing
    | .breakStatement l => all [text "break", text (l.elim "" (" " ++ ·)), semicolon]
    | .continueStatement l => all [text "continue", text (l.elim "" (" " ++ ·)), semicolon]
    | .throwStatement => match kids with
      | [e] => all [text "throw ", expr Level.lowest {} e, semicolon]
      | _ => nothing
    | .tryStatement => match kids with
      | [b, h, f] => all [text "try ", blockText c b, when (!h.isHole) (catchText c h),
          when (!f.isHole) (all [text " finally ", blockText c f]), newline]
      | _ => nothing
    | .switchStatement => match kids with
      | v :: cases => all [text "switch (", expr Level.lowest {} v, text ") ",
          braces cases.isEmpty (switchCases c cases), newline]
      | [] => nothing
    | .labeled x => match kids with
      | [s] => all [text x, char ':', branchOf s (blockText c s) (statementText c s)]
      | _ => nothing
    | .emptyStatement => semicolon
    | .debuggerStatement => text "debugger;\n"
    | .withStatement => match kids with
      | [e, b] => all [text "with (", expr Level.lowest {} e, char ')', branchOf b (blockText c b) (statementText c b)]
      | _ => nothing
    | .directive raw =>
      let q := directiveQuote raw.toList
      all [char q, text raw, char q, semicolon]
    | .hashbang line => all [text line, newline]
    | .importDecl phase source bare _ =>
      all [text "import", text ((phaseWord phase).elim "" (" " ++ ·)), when (!bare) (importedNames kids), char ' ', quoted source false,
        attributesText kids, semicolon]
    | .exportDecl => match kids with
      | [.node (.variableList k) _ ds] => all [text "export ", variablesOf k (declarators c true ds), semicolon]
      | [.node (.functionDecl f) _ ks] => all [text "export ", functionText {} f ks, newline]
      | [.node .classDecl _ ks] => all [text "export ", classText ks, newline]
      | _ => nothing
    | .exportList source _ =>
      all [text "export \x7b", exportNames true kids, text "\x7d",
        match source with
        | some s => all [text " from ", quoted s false]
        | none => nothing, semicolon]
    | .exportAll asName source _ =>
      all [text "export *", match asName with
        | some n => all [text " as ", exportedName n]
        | none => nothing, text " from ", quoted source false, attributesText kids, semicolon]
    | .exportDefault => match kids with
      | [.node (.functionDecl f) _ ks] => all [text "export default ", functionText {} f ks, newline]
      | [.node .classDecl _ ks] => all [text "export default ", classText ks, newline]
      | [e] => all [text "export default ", startDefault, expr Level.comma {} e, semicolon]
      | _ => nothing
    | _ => nothing

def catchText (c : Surroundings) : Tree → Emit
  | .node _ _ kids => match kids with
    | [p, b] => all [text " catch", when (!p.isHole) (all [text " (", pattern {} p, char ')']), char ' ',
        blockText c b]
    | _ => nothing

end

end Printer

/-- The text of a script. -/
def print (tree : Tree) (comments : List Comment) : String :=
  match tree with
  | .node _ span items =>
    let o := Printer.Emit.all [Printer.bodyItems {} items, Printer.commentsAt span.stop]
      { comments }
    String.ofList o.reversed.reverse

end LiveNotes.Script
