import LiveNotes.Script.Cursor

/-! Names, the keys of properties, lists with commas between their parts, and templates. -/

namespace LiveNotes.Script.Grammar

open Parse

/-- Takes note that `w` names a variable. `await` and `yield` name none where they are operators. -/
def useName (c : Context) (w : String) : Parse Unit := do
  flawIf ((c.awaits && w == "await") || (c.yields && w == "yield"))
  if c.undecided && w == "await" then modify ({ · with namesAwait := true })

/-- An identifier that is no reserved word. -/
def identifierText (c : Context) : Parse String := do
  match ← kind with
  | .word w _ =>
    if isReserved w then reject
    useName c w
    advance
    pure w
  | _ => reject

def bindingName (c : Context) : Parse Tree := do
  let start ← here
  let w ← identifierText c
  finish (.binding w) start []

/-- Any word, reserved or not. -/
def wordText : Parse String := do
  match ← kind with
  | .word w _ => advance; pure w
  | _ => reject

/-- Whether a token can name a variable. -/
def isIdentifier : TokenKind → Bool
  | .word w _ => !isReserved w
  | _ => false

/-- Whether the current token can name a variable. -/
def atIdentifier : Parse Bool := return isIdentifier (← kind)

/-- One more element in front of those found so far, and whether a comma follows it. -/
def commaStep {α : Type} (close : Punct) (item : Parse α) : List α × Bool → Parse (Option (List α × Bool))
  | (found, _) => do
    if ← atPunct close then pure none
    else
      let a ← item
      let comma ← eatPunct .comma
      unless comma do
        unless ← atPunct close do reject
      pure (some (a :: found, comma))

/-- Elements up to the closing token, with commas between them, and whether a comma ends them. -/
def commaEnded {α : Type} (close : Punct) (item : Parse α) : Parse (List α × Bool) := do
  let (found, comma) ← loop (commaStep close item) ([], false)
  pure (found.reverse, comma)

/-- Elements up to the closing token, with commas between them and perhaps one at the end. -/
def commaList {α : Type} (close : Punct) (item : Parse α) : Parse (List α) :=
  return (← commaEnded close item).1

/-- Expressions with commas between them. -/
def expression (rec : Readers) (c : Context) : Parse Tree := do
  let start ← here
  let first ← rec (.assignment c)
  if ← atPunct .comma then
    let others ← many do
      if ← eatPunct .comma then return some (← rec (.assignment c)) else pure none
    finish .sequence start (first :: others)
  else pure first

/-- The key of a property or member, and whether it is computed. -/
def propertyKey (rec : Readers) (c : Context) : Parse (Tree × Bool) := do
  let start ← here
  match ← kind with
  | .word w _ => advance; return (← finish (.name w) start [], false)
  | .string v s => advance; return (← finish (.string v s) start [], false)
  | .number d => advance; return (← finish (.number d) start [], false)
  | .bigint d => advance; return (← finish (.bigint d) start [], false)
  | .privateWord w => advance; return (← finish (.privateName w) start [], false)
  | .punct .leftBracket =>
    advance
    let key ← rec (.assignment c.inside)
    expectPunct .rightBracket
    return (key, true)
  | _ => reject

/-- Whether a property may have the key of a token without brackets. -/
def isPropertyKey : TokenKind → Bool
  | .word _ _ | .string _ _ | .number _ | .bigint _ | .privateWord _ => true
  | _ => false

/-! ### Templates: text with expressions or types in it -/

/-- Where the reading of a template stands: its parts so far, latest first, the place behind them
and whether it has ended. -/
structure TemplateState where
  parts : List Tree := []
  place : Place
  ended : Bool := false

/-- Reads text and, if one follows, a substitution. Behind a tag any escape may stand in the text. -/
def templateStep (tagged : Bool) (item : Parse Tree) (s : TemplateState) :
    Parse (Option TemplateState) := do
  if s.ended then pure none
  else match readQuasi ((← get).size + 1) [] s.place with
    | none => reject
    | some (raw, ended, after) =>
      unless tagged do flawIf (pointsOfQuasi? raw).isNone
      let stop := after.pos - (if ended then 1 else 2)
      let quasi := Tree.node (.quasi (String.ofList raw)) ⟨s.place.pos, stop⟩ []
      if ended then pure (some ⟨quasi :: s.parts, after, true⟩)
      else
        advanceFrom after
        let e ← item
        unless ← atPunct .rightBrace do reject
        pure (some ⟨e :: quasi :: s.parts, (← get).after, false⟩)

/-- The parts of a template whose substitutions are read by `item`; the current token is the opening
mark. -/
def templateParts (tagged : Bool) (item : Parse Tree) : Parse (List Tree) := do
  unless ← atPunct .backtick do reject
  let s ← loop (templateStep tagged item) { place := (← get).after }
  advanceFrom s.place
  pure s.parts.reverse

def template (rec : Readers) (c : Context) (tagged : Bool) : Parse Tree := do
  let start ← here
  let parts ← templateParts tagged (expression rec c.inside)
  finish .template start parts

end LiveNotes.Script.Grammar
