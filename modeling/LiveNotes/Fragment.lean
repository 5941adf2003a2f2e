import LiveNotes.Json.Value

/-! Pieces of code in a document. -/

namespace LiveNotes

/-- How a piece of code is written and what it is evaluated to. -/
inductive FragmentKind where
  /-- An expression in a line of text. -/
  | inlineExpression
  /-- Markup in a line of text. -/
  | inlineMarkup
  /-- Statements between fences; later fragments see what they export. -/
  | blockStatement
  /-- Markup between fences. -/
  | blockMarkup
  deriving DecidableEq, Repr, Inhabited

namespace FragmentKind

def isInline : FragmentKind → Bool
  | .inlineExpression | .inlineMarkup => true
  | .blockStatement | .blockMarkup => false

def name : FragmentKind → String
  | .inlineExpression => "inline-expression"
  | .inlineMarkup => "inline-markup"
  | .blockStatement => "block-statement"
  | .blockMarkup => "block-markup"

end FragmentKind

structure Fragment where
  kind : FragmentKind
  /-- The first byte, and the one behind the last: of a code span with its backticks, or of a block
  with its fences. -/
  start : Nat
  stop : Nat
  /-- The code without marks around it. -/
  content : String
  /-- The component that a block is the children of. -/
  component : Option String
  /-- Whether the cursor is in one of its lines. -/
  cursorInside : Bool
  deriving DecidableEq, Repr, Inhabited

/-- The bytes that what a fragment evaluates to takes the place of. A block also takes the line breaks
around it, in a document of `size` bytes. -/
def Fragment.decoration (f : Fragment) (size : Nat) : Nat × Nat :=
  if f.kind.isInline then (f.start, f.stop) else (f.start - 1, min (f.stop + 1) size)

def Fragment.toJson (f : Fragment) : Json :=
  .object [("kind", .text f.kind.name), ("from", .nat f.start), ("to", .nat f.stop),
    ("content", .text f.content), ("shortcutComponent", .optionalText f.component),
    ("cursorInside", .bool f.cursorInside)]

end LiveNotes
