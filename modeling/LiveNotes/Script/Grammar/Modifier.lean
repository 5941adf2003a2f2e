import LiveNotes.Script.Grammar.Name

/-! The words in front of members, parameters and declarations. They are modifiers only where
something follows that they can modify; elsewhere they are names. -/

namespace LiveNotes.Script.Grammar

open Parse

/-- From where a member can be reached. -/
inductive Visibility where
  | everywhere | family | here
  deriving DecidableEq, Repr

inductive Modifier where
  | visibility (from_ : Visibility)
  | abstract | accessor | async | const | declare | inward | outward | override | readonly | static
  deriving DecidableEq, Repr

def modifierOfWord? : String → Option Modifier
  | "public" => some (.visibility .everywhere)
  | "protected" => some (.visibility .family)
  | "private" => some (.visibility .here)
  | "abstract" => some .abstract
  | "accessor" => some .accessor
  | "async" => some .async
  | "const" => some .const
  | "declare" => some .declare
  | "in" => some .inward
  | "out" => some .outward
  | "override" => some .override
  | "readonly" => some .readonly
  | "static" => some .static
  | _ => none

namespace Modifier

def isVisibility : Modifier → Bool
  | .visibility _ => true
  | _ => false

/-- Whether a text without types may hold the modifier. -/
def isPlain : Modifier → Bool
  | .accessor | .async | .static => true
  | _ => false

/-- Whether `visibility` must stand in front of the modifier. -/
def followsVisibility : Modifier → Bool
  | .override | .static | .accessor | .readonly | .async => true
  | _ => false

end Modifier

/-- What modifiers stand in front of. -/
inductive ModifierPlace where
  | member | declaration | elsewhere
  deriving DecidableEq, Repr

/-- Whether a word in front of a token of the given kind can be a modifier. -/
def canFollowModifier (k : TokenKind) : Bool :=
  isPropertyKey k || match k with
    | .punct p => [Punct.leftBracket, .leftBrace, .star, .ellipsis].contains p
    | _ => false

/-- Whether a word that stands for `m` modifies what `next` starts, `found` being the modifiers in
front of it. -/
def modifies (place : ModifierPlace) (found : List Modifier) (m : Modifier) (next : Token) : Bool :=
  canFollowModifier next.kind &&
    match m with
    | .static => !found.contains .static && !(place == .member && next.kind == .punct .leftBrace)
    | .const | .async => !next.newline && place != .declaration
    | _ => !next.newline

/-- Modifiers, in order. -/
def modifiers (place : ModifierPlace) : Parse (List Modifier) := do
  let found ← loop (fun found => do
    match (← kind).plainWord?.bind modifierOfWord? with
    | some m =>
      if modifies place found m (← nextToken) then advance; pure (some (m :: found)) else pure none
    | none => pure none) []
  pure found.reverse

/-- Whether a modifier stands twice, or one of visibility behind one that it must precede. -/
def misplaced : List Modifier → Bool
  | [] => false
  | m :: ms =>
    ms.contains m || ((m.isVisibility || m.followsVisibility) && ms.any (·.isVisibility)) ||
      misplaced ms

/-- Notes a fault unless the modifiers are in order and each of them is allowed here. -/
def checkModifiers (allowed : Modifier → Bool) (ms : List Modifier) : Parse Unit := do
  let types ← typesAllowed
  flawIf (misplaced ms || ms.any fun m => !(allowed m && (types || m.isPlain)))

example : misplaced [.visibility .here, .static] = false := by decide

example : misplaced [.static, .visibility .here] = true := by decide

end LiveNotes.Script.Grammar
