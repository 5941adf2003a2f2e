import LiveNotes.Script.Grammar.Class

/-! Regular expressions, arrays, objects, and expressions in parentheses. -/

namespace LiveNotes.Script.Grammar

open Parse

/-! ### Regular expressions -/

/-- Raw text of a regular expression up to its closing slash. -/
def readRegexBody (p : Place) : Option (List Char × Place) :=
  go [] false false p.rest p.pos
where
  go : List Char → Bool → Bool → List Char → Nat → Option (List Char × Place)
    | _, _, _, [], _ => none
    | acc, inClass, escaped, c :: rest, pos =>
      if isLineEnd c then none
      else
        let pos' := pos + c.utf8Size
        if escaped then go (c :: acc) inClass false rest pos'
        else if c == '\x5c' then go (c :: acc) inClass true rest pos'
        else if c == '[' then go (c :: acc) true false rest pos'
        else if c == ']' then go (c :: acc) false false rest pos'
        else if c == '/' && !inClass then some (acc.reverse, ⟨rest, pos'⟩)
        else go (c :: acc) inClass false rest pos'

/-- The flags of a regular expression, in the order in which they are written. -/
def regexFlags : List Char := "dgimsuvy".toList

/-- Flags are distinct and known, and `u` and `v` exclude each other. -/
def validFlags (flags : List Char) : Bool :=
  flags.all (regexFlags.contains ·) && flags.eraseDups.length == flags.length &&
    !(flags.contains 'u' && flags.contains 'v')

def regex : Parse Tree := do
  let start ← here
  match readRegexBody ((← get).start.skip 1) with
  | none => reject
  | some (body, after) =>
    let (flags, place) := after.takeWhile isIdentifierPart
    flawIf !(validFlags flags)
    advanceFrom place
    let flags := regexFlags.filter (flags.contains ·)
    finish (.regex (String.ofList body) (String.ofList flags)) start []

/-! ### Arrays and objects -/

def spreadOr (rec : Readers) (c : Context) : Parse Tree := do
  let start ← here
  if ← eatPunct .ellipsis then
    let e ← rec (.assignment c.inside)
    finish .spread start [e]
  else rec (.assignment c.inside)

def arrayLiteral (rec : Readers) (c : Context) : Parse Tree := do
  let start ← here
  expectPunct .leftBracket
  let (items, comma) ← commaEnded .rightBracket do
    if ← atPunct .comma then holeHere else spreadOr rec c
  expectPunct .rightBracket
  finish (.array comma) start items

/-- What stands in front of the key of a property. -/
structure PropertyHead where
  start : Nat
  kind : PropertyKind := .value
  isAsync : Bool := false
  isGenerator : Bool := false

/-- The words and the star in front of a key. -/
def propertyHead : Parse PropertyHead := do
  let start ← here
  match ← accessorKind? with
  | some .getter => pure { start, kind := .getter }
  | some _ => pure { start, kind := .setter }
  | none =>
    let next ← if ← atWord "async" then some <$> nextToken else pure none
    let isAsync := next.any fun t => !t.newline && canFollowModifier t.kind
    if isAsync then advance
    let isGenerator ← eatPunct .star
    pure { start, kind := if isAsync || isGenerator then .method else .value, isAsync, isGenerator }

/-- A method or accessor of an object from its parameters on. -/
def objectMethod (rec : Readers) (h : PropertyHead) (key : Tree) (computed : Bool) : Parse Tree := do
  let types ← typesAllowed
  if h.kind == .setter then flawIf (← statesResult rec)
  match ← methodFunction rec false .plain h.isAsync h.isGenerator with
  | none => reject
  | some f =>
    let ps := paramsOf f
    match h.kind with
    | .getter => flawIf !ps.isEmpty
    | .setter => flawIf !(isSetter types ps)
    | _ => pure ()
    let kind := if h.kind == .value then .method else h.kind
    finish (.property kind computed false) h.start [key, f]

/-- A property whose key is the variable that it reads; a default makes it part of a pattern. -/
def shorthandProperty (rec : Readers) (c : Context) (key : Tree) (w : String) : Parse Tree := do
  useName c w
  let start := key.span.start
  let name := Tree.node (.read w) key.span []
  if ← eatPunct .assign then
    let value ← rec (.assignment c.inside)
    let full ← finish .coverDefault start [name, value]
    finish (.property .value false true) start [key, full]
  else finish (.property .value false true) start [key, name]

def property (rec : Readers) (c : Context) : Parse Tree := do
  let start ← here
  if ← atPunct .ellipsis then return ← spreadOr rec c
  let h ← propertyHead
  let atName ← atIdentifier
  let (key, computed) ← propertyKey rec c
  if let .privateName _ := key.label then reject
  if (← atPunct .leftParen) || ((← typesAllowed) && (← atPunct .less)) then
    objectMethod rec h key computed
  else if h.kind != .value then reject
  else if ← eatPunct .colon then
    let value ← rec (.assignment c.inside)
    finish (.property .value computed false) start [key, value]
  else match atName, key.label with
    | true, .name w => shorthandProperty rec c key w
    | _, _ => reject

def objectLiteral (rec : Readers) (c : Context) : Parse Tree := do
  let start ← here
  expectPunct .leftBrace
  let (props, comma) ← commaEnded .rightBrace (property rec c)
  expectPunct .rightBrace
  finish (.object comma) start props

/-! ### Parentheses -/

/-- Marks a function as standing in parentheses. -/
def enclose : Tree → Tree
  | .node (.function f) s ks => .node (.function { f with enclosed := true }) s ks
  | .node (.arrow f) s ks => .node (.arrow { f with enclosed := true }) s ks
  | t => t

def parenthesized (rec : Readers) (c : Context) : Parse Tree := do
  let start ← here
  expectPunct .leftParen
  let e ← expression rec c.inside
  expectPunct .rightParen
  finish .paren start [enclose e]

/-- An expression in parentheses, as it stands behind a keyword. -/
def inParens (rec : Readers) (c : Context) : Parse Tree := do
  expectPunct .leftParen
  let e ← expression rec c
  expectPunct .rightParen
  pure e

end LiveNotes.Script.Grammar
