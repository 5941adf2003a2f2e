import LiveNotes.Script.Grammar.Type

/-! Elements of markup inside a script. A reader of an element ends at its last `>`, which is left
as the current token: inside another element text follows it, elsewhere a token. -/

namespace LiveNotes.Script.Grammar

open Parse

/-- The text of an element's name, for matching a closing tag. -/
def tagText : Tree → String
  | .node (.tagName t) _ _ => t
  | .node (.read t) _ _ => t
  | .node .thisRef _ _ => "this"
  | .node (.qualifiedName s t) _ _ => s ++ ":" ++ t
  | .node (.member t _) _ [o] => tagText o ++ "." ++ t
  | _ => ""

/-- A word that may hold hyphens. -/
def hyphenWord : Parse String := do
  let c ← get
  match c.token.kind with
  | .word _ false =>
    let (taken, place) := c.start.takeWhile fun x => isIdentifierPart x || x == '-'
    advanceFrom place
    pure (String.ofList taken)
  | _ => reject

/-- Whether an element's name stands for a variable and not for itself. -/
def namesVariable (w : String) : Bool :=
  match w.toList with
  | [] => false
  | c :: rest => !('a' ≤ c && c ≤ 'z') && !(c :: rest).contains '-'

def tagName : Parse Tree := do
  let start ← here
  let w ← hyphenWord
  if ← eatPunct .colon then
    let t ← hyphenWord
    finish (.qualifiedName w t) start []
  else if ← atPunct .dot then
    let base ← finish (if w == "this" then .thisRef else .read w) start []
    if w.toList.contains '-' then reject
    loop (fun t => do
      if ← eatPunct .dot then
        let name ← wordText
        return some (← finish (.member name false) start [t])
      else pure none) base
  else if w == "this" then finish .thisRef start []
  else finish (if namesVariable w then .read w else .tagName w) start []

/-- The raw text between quotes right behind the current token, if there is one. -/
def quotedValue? : Parse (Option (Tree × Place)) := do
  let c ← get
  match skipTrivia (c.size + 1) {} c.after with
  | none => reject
  | some (_, p) =>
    match p.rest with
    | q :: rest =>
      if q == '\x22' || q == '\x27' then
        let (taken, close) := (p.step q rest).takeWhile (· != q)
        match close.rest with
        | _ :: rest' =>
          let value := Tree.node (.markupText (String.ofList taken)) ⟨p.pos, close.pos + 1⟩ []
          pure (some (value, ⟨rest', close.pos + 1⟩))
        | [] => reject
      else pure none
    | [] => pure none

/-- A single expression, or nothing, in braces, of which the closing one is not consumed. -/
def braced (rec : Readers) (c : Context) : Parse Tree := do
  let start ← here
  expectPunct .leftBrace
  let inner ← if ← atPunct .rightBrace then pure [] else pure [← rec (.assignment c)]
  unless ← atPunct .rightBrace do reject
  return .node .braced ⟨start, (← get).after.pos⟩ inner

/-- The value behind the equals sign of an attribute. -/
def attributeValue (rec : Readers) (c : Context) : Parse Tree := do
  match ← quotedValue? with
  | some (t, place) => advanceFrom place; pure t
  | none =>
    expectPunct .assign
    match ← kind with
    | .punct .leftBrace =>
      let e ← braced rec c
      advance
      pure e
    | .punct .less =>
      let e ← rec (.element c)
      expectPunct .greater
      pure e
    | _ => reject

def markupAttribute (rec : Readers) (c : Context) : Parse (Option Tree) := do
  let start ← here
  match ← kind with
  | .punct .leftBrace =>
    advance
    expectPunct .ellipsis
    let e ← expression rec c
    expectPunct .rightBrace
    return some (← finish .spread start [e])
  | .word _ _ =>
    let w ← hyphenWord
    let name ← if ← eatPunct .colon then pure (w ++ ":" ++ (← hyphenWord)) else pure w
    let value ← if ← atPunct .assign then attributeValue rec c else holeHere
    return some (← finish (.attribute name) start [value])
  | _ => pure none

/-- Raw text up to the next brace or angle. A closing one must not stand in text. -/
def markupText (p : Place) : Option (List Char × Place) :=
  let (taken, after) := p.takeWhile fun c => c != '{' && c != '<' && c != '>' && c != '}'
  match after.rest with
  | '{' :: _ | '<' :: _ => some (taken, after)
  | _ => none

/-- A child in braces; the current token is the opening one, and then the closing one. -/
def braceChild (rec : Readers) (c : Context) : Parse Tree := do
  let start ← here
  if (← nextToken).kind == .punct .ellipsis then
    advance
    advance
    let e ← expression rec c
    unless ← atPunct .rightBrace do reject
    finish .spread start [e]
  else braced rec c

/-- The children from `place` up to the closing tag of the element `name`, which is read up to its
last `>`. -/
def children (rec : Readers) (c : Context) (name : String) (place : Place) : Parse (List Tree) := do
  let step : List Tree × Place × Bool → Parse (Option (List Tree × Place × Bool)) :=
    fun (acc, place, closed) => do
      if closed then pure none
      else match markupText place with
        | none => reject
        | some (c₀ :: raw, after) =>
          let text := Tree.node (.markupText (String.ofList (c₀ :: raw))) ⟨place.pos, after.pos⟩ []
          pure (some (text :: acc, after, false))
        | some ([], after) =>
          readAt {} after
          if ← atPunct .leftBrace then
            let child ← braceChild rec c
            pure (some (child :: acc, (← get).after, false))
          else if !(← atPunct .less) then reject
          else if (← nextToken).kind == .punct .slash then
            advance
            advance
            let close ← if ← atPunct .greater then pure "" else tagText <$> tagName
            unless ← atPunct .greater do reject
            if close == name then pure (some (acc, after, true)) else reject
          else
            let child ← rec (.element c)
            unless ← atPunct .greater do reject
            pure (some (child :: acc, (← get).after, false))
  let (acc, _, _) ← loop step ([], place, false)
  pure acc.reverse

/-- An element from its `<` to its last `>`. -/
def element (rec : Readers) (c₀ : Context) : Parse Tree := do
  let c := c₀.inside
  let start ← here
  expectPunct .less
  let done (kids : List Tree) : Parse Tree := do
    unless ← atPunct .greater do reject
    return .node .element ⟨start, (← get).after.pos⟩ kids
  if ← atPunct .greater then
    let none_ ← holeHere
    let cs ← children rec c "" (← get).after
    done (none_ :: none_ :: cs)
  else
    let name ← tagName
    if ← typesAllowed then typeArguments? rec
    let attrsStart ← here
    let attrs ← many (markupAttribute rec c)
    let attrs ← finish .attributes attrsStart attrs
    if ← eatPunct .slash then done [name, attrs]
    else
      unless ← atPunct .greater do reject
      let cs ← children rec c (tagText name) (← get).after
      done (name :: attrs :: cs)

end LiveNotes.Script.Grammar
