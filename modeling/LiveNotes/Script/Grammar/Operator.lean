import LiveNotes.Script.Grammar.Access
import LiveNotes.Script.Tree

/-! Expressions with operators in front of, behind and between their operands, and what an expression
assigns to. -/

namespace LiveNotes.Script.Grammar

open Parse

/-! ### Targets

The left side of an assignment is read as an expression; here it is taken for what is assigned to. -/

/-- A variable or an access; parentheses around it are dropped, and what is said about its type is
kept. -/
def simpleTarget? : Tree → Option Tree
  | .node (.read x) s _ => some (.node (.target x) s [])
  | .node (.member x false) s ks => some (.node (.member x false) s ks)
  | .node (.privateMember x false) s ks => some (.node (.privateMember x false) s ks)
  | .node (.index false) s ks => some (.node (.index false) s ks)
  | .node .paren _ [e] => simpleTarget? e
  | .node (.typed mark) s [e] =>
    if mark == .arguments then none
    else (simpleTarget? e).map fun t => .node (.typed mark) s [t]
  | _ => none

/-- Whether a list of elements or properties ends in a spread, behind which no comma may stand. -/
def endsInSpread (parts : List Tree) : Bool := (parts.getLast?.map (·.label == .spread)).getD false

/-- A pattern of the given kind, with the targets of its parts `ks`. -/
def patternTarget? (label : Label) (comma : Bool) (s : Span) (ks : List Tree)
    (targets : Option (List Tree)) : Option Tree :=
  if comma && endsInSpread ks then none else targets.map (.node label s)

mutual

/-- What an expression assigns to when it stands left of an equals sign. -/
def target? : Tree → Option Tree
  | .node (.array comma) s ks => patternTarget? .arrayTarget comma s ks (elementTargets? ks)
  | .node (.object comma) s ks => patternTarget? .objectTarget comma s ks (propertyTargets? ks)
  | t => simpleTarget? t

/-- An element of a pattern: a target, or an assignment that gives its default. -/
def elementTarget? : Tree → Option Tree
  | .node .hole s _ => some (.node .hole s [])
  | .node (.assign .plain) s [t, v] => some (.node .withDefault s [t, v])
  | .node .coverDefault s [n, v] => (simpleTarget? n).map fun t => .node .withDefault s [t, v]
  | .node .spread s [e] => (target? e).map fun t => .node .rest s [t]
  | .node (.array comma) s ks => patternTarget? .arrayTarget comma s ks (elementTargets? ks)
  | .node (.object comma) s ks => patternTarget? .objectTarget comma s ks (propertyTargets? ks)
  | t => simpleTarget? t

def elementTargets? : List Tree → Option (List Tree)
  | [] => some []
  | t :: ts =>
    if t.label == .spread && !ts.isEmpty then none
    else match elementTarget? t, elementTargets? ts with
      | some u, some us => some (u :: us)
      | _, _ => none

/-- A property of a pattern; the rest of an object is no pattern. -/
def propertyTarget? : Tree → Option Tree
  | .node (.property .value computed shorthand) s [k, v] =>
    (elementTarget? v).map fun t => .node (.targetProperty computed shorthand) s [k, t]
  | .node .spread s [e] => (simpleTarget? e).map fun t => .node .rest s [t]
  | _ => none

def propertyTargets? : List Tree → Option (List Tree)
  | [] => some []
  | t :: ts =>
    if t.label == .spread && !ts.isEmpty then none
    else match propertyTarget? t, propertyTargets? ts with
      | some u, some us => some (u :: us)
      | _, _ => none

end

/-! ### Effect notes -/

/-- Marks the call that an expression makes first as free of effects, as a comment in front says. -/
def markPure : Tree → Tree
  | .node (.call o _) s ks => .node (.call o true) s ks
  | .node (.new _) s ks => .node (.new true) s ks
  | .node .paren s [e] => .node .paren s [markPure e]
  | .node (.binary op) s [l, r] => .node (.binary op) s [markPure l, r]
  | .node (.logical op) s [l, r] => .node (.logical op) s [markPure l, r]
  | .node .conditional s [t, y, n] => .node .conditional s [markPure t, y, n]
  | .node .chain s [.node (.call o _) cs ks] => .node .chain s [.node (.call o true) cs ks]
  | t => t

/-- The expression that `read` reads, marked when a comment in front of it asks for that. -/
def withNote (read : Parse Tree) : Parse Tree := do
  let isPure := (← token).pure
  let e ← read
  pure (if isPure then markPure e else e)

/-! ### One operand -/

def unaryOp? : TokenKind → Option UnaryOp
  | .punct .minus => some .minus
  | .punct .plus => some .plus
  | .punct .bang => some .not
  | .punct .tilde => some .bitNot
  | .word "typeof" false => some .typeof
  | .word "void" false => some .void
  | .word "delete" false => some .delete
  | _ => none

/-- The target of an increment or decrement. -/
def updateTarget (t : Tree) : Parse Tree :=
  match simpleTarget? t with
  | some u => pure u
  | none => reject

/-- An access with perhaps an increment or decrement behind it. -/
def postfix_ (rec : Readers) (c : Context) : Parse Tree := do
  let start ← here
  let t ← accesses rec c true
  let decrement ← atPunct .minus2
  if (decrement || (← atPunct .plus2)) && !(← onNewLine) then
    let u ← updateTarget t
    advance
    finish (.update decrement false) start [u]
  else pure t

/-- Whether what follows a word shows that the word waits for it and is no name. -/
def showsAwait (next : Token) : Bool :=
  !next.newline && match next.kind with
    | .word w _ => w != "in" && w != "instanceof"
    | .number _ | .bigint _ | .string _ _ => true
    | _ => false

/-- Whether the current word is an operator that waits for a result. -/
def atAwait (c : Context) : Parse Bool := do
  if !(← atWord "await") then pure false
  else if c.awaits then pure true
  else return showsAwait (← nextToken)

/-- Notes that the text waits here, which is a fault where it cannot. -/
def checkAwait (c : Context) : Parse Unit := do
  unless c.awaits do
    if c.undecided then flawScript else flaw

/-- An element of markup, or an expression behind a type in angles. -/
def angled (rec : Readers) (c : Context) : Parse Tree := do
  let start ← here
  if ← markupAllowed then
    let e ← rec (.element c)
    expectPunct .greater
    pure e
  else if ← typesAllowed then
    openAngle
    typeOnly rec
    closeAngle
    let e ← rec (.unary c)
    finish (.typed .assertion) start [e]
  else reject

def unary (rec : Readers) (c : Context) : Parse Tree := do
  let start ← here
  let k ← kind
  match unaryOp? k with
  | some op =>
    advance
    let e ← withNote (rec (.unary c))
    finish (.unary op) start [e]
  | none =>
    match k with
    | .punct .plus2 | .punct .minus2 =>
      advance
      let t ← updateTarget (← rec (.unary c))
      finish (.update (k == .punct .minus2) true) start [t]
    | .punct .less | .punct .less2 => angled rec c
    | _ =>
      if ← atAwait c then
        checkAwait c
        advance
        let e ← rec (.unary { c with awaits := true })
        finish .await start [e]
      else postfix_ rec c

/-! ### Two operands -/

/-- An operator between two operands. -/
inductive InfixOp where
  | binary (op : BinaryOp)
  | logical (op : LogicalOp)
  deriving DecidableEq, Repr

/-- How tightly an operator binds; a greater number binds tighter. -/
def InfixOp.precedence : InfixOp → Nat
  | .logical .coalesce => 1
  | .logical .or => 2
  | .logical .and => 3
  | .binary .bitOr => 4
  | .binary .bitXor => 5
  | .binary .bitAnd => 6
  | .binary .equal | .binary .notEqual | .binary .strictEqual | .binary .strictNotEqual => 7
  | .binary .less | .binary .lessEqual | .binary .greater | .binary .greaterEqual | .binary .isIn
  | .binary .instanceOf => 8
  | .binary .shiftLeft | .binary .shiftRight | .binary .shiftRightZero => 9
  | .binary .add | .binary .subtract => 10
  | .binary .multiply | .binary .divide | .binary .remainder => 11
  | .binary .power => 12

/-- The precedence of comparisons, of which statements about types are some. -/
def comparePrecedence : Nat := InfixOp.precedence (.binary .less)

/-- The operator that a run of `>` spells, what of it stands behind the first, and whether it
assigns. -/
def angleRun : List Char → BinaryOp × Nat × Bool
  | '>' :: '>' :: '=' :: _ => (.shiftRightZero, 3, true)
  | '>' :: '>' :: _ => (.shiftRightZero, 2, false)
  | '>' :: '=' :: _ => (.shiftRight, 2, true)
  | '>' :: _ => (.shiftRight, 1, false)
  | '=' :: _ => (.greaterEqual, 1, false)
  | _ => (.greater, 0, false)

def infixOfPunct? : Punct → Option InfixOp
  | .question2 => some (.logical .coalesce)
  | .bar2 => some (.logical .or)
  | .amp2 => some (.logical .and)
  | .bar => some (.binary .bitOr)
  | .caret => some (.binary .bitXor)
  | .amp => some (.binary .bitAnd)
  | .equal2 => some (.binary .equal)
  | .notEqual2 => some (.binary .notEqual)
  | .equal3 => some (.binary .strictEqual)
  | .notEqual3 => some (.binary .strictNotEqual)
  | .less => some (.binary .less)
  | .lessEqual => some (.binary .lessEqual)
  | .less2 => some (.binary .shiftLeft)
  | .plus => some (.binary .add)
  | .minus => some (.binary .subtract)
  | .star => some (.binary .multiply)
  | .slash => some (.binary .divide)
  | .percent => some (.binary .remainder)
  | .star2 => some (.binary .power)
  | _ => none

/-- The operator at the current token, and the place behind it. -/
def infixOp? (c : Context) : Parse (Option (InfixOp × Place)) := do
  let s ← get
  match s.token.kind with
  | .punct .greater =>
    let (op, n, assigns) := angleRun s.after.rest
    pure (if assigns then none else some (.binary op, s.after.skip n))
  | .punct p => pure ((infixOfPunct? p).map (·, s.after))
  | .word "instanceof" false => pure (some (.binary .instanceOf, s.after))
  | .word "in" false => pure (if c.inOperator then some (.binary .isIn, s.after) else none)
  | _ => pure none

/-- Mixing `??` with the other logical operators takes parentheses, and so does a power of a unary
expression. -/
def badOperands : InfixOp → Tree → Tree → Bool
  | .logical .coalesce, l, r => isOther l.label || isOther r.label
  | .logical _, l, r => l.label == .logical .coalesce || r.label == .logical .coalesce
  | .binary .power, l, _ => match l.label with
    | .unary _ | .await => true
    | _ => false
  | _, _, _ => false
where
  isOther : Label → Bool
    | .logical .or | .logical .and => true
    | _ => false

def infixLabel : InfixOp → Label
  | .binary op => .binary op
  | .logical op => .logical op

/-- The search for a private name in an object, as an operand of operators of at least precedence
`least`. -/
def privateSearch (rec : Readers) (c : Context) (least : Nat) (w : String) : Parse Tree := do
  let start ← here
  advance
  unless c.inOperator do reject
  expectWord "in"
  let e ← rec (.binary c (comparePrecedence + 1))
  if least > comparePrecedence then reject
  finish (.privateIn w) start [e]

/-- A private name that is looked for in an object, or a unary expression. -/
def operand (rec : Readers) (c : Context) (least : Nat) : Parse Tree := do
  match ← kind with
  | .privateWord w => privateSearch rec c least w
  | _ => withNote (unary rec c)

/-- Whether a statement about the type of the operand before follows. -/
def atTypeClaim : Parse Bool := do
  if (← typesAllowed) && !(← onNewLine) then
    return (← atWord "as") || (← atWord "satisfies")
  else pure false

/-- The expression that an operator and an operand behind it make of `left`, if they follow. -/
def binaryStep (rec : Readers) (c : Context) (least start : Nat) (left : Tree) :
    Parse (Option Tree) := do
  if least ≤ comparePrecedence && (← atTypeClaim) then
    advance
    typeOnly rec
    return some (← finish (.typed .assertion) start [left])
  match ← infixOp? c with
  | none => pure none
  | some (op, place) =>
    if op.precedence < least then pure none
    else
      if (← get).after.pos == place.pos then advance else advanceFrom place
      let next := if op == .binary .power then op.precedence else op.precedence + 1
      let right ← rec (.binary c next)
      flawIf (badOperands op left right)
      return some (← finish (infixLabel op) start [left, right])

/-- Operands joined by operators of at least precedence `least`. -/
def binary (rec : Readers) (c : Context) (least : Nat) : Parse Tree := do
  let start ← here
  let first ← operand rec c least
  loop (binaryStep rec c least start) first

end LiveNotes.Script.Grammar
