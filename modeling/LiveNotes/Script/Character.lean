import LiveNotes.Script.IdentifierRange

/-! Classes of the characters of a script: white space, line ends, identifier characters and digits,
and the check whether a whole text is an identifier name. -/

namespace LiveNotes.Script

/-- Whether some run of `ranges`, which are in increasing order, holds `n`. -/
def inRanges (n : Nat) : List (Nat × Nat) → Bool
  | [] => false
  | (low, high) :: rest => if n < low then false else n ≤ high || inRanges n rest

def isAsciiLetter (c : Char) : Bool :=
  ('a' ≤ c && c ≤ 'z') || ('A' ≤ c && c ≤ 'Z')

def isDecimalDigit (c : Char) : Bool := '0' ≤ c && c ≤ '9'

/-- Letters, `$`, `_` and the characters beyond ASCII that Unicode lets an identifier start with. -/
def isIdentifierStart (c : Char) : Bool :=
  if c.toNat < 128 then isAsciiLetter c || c == '$' || c == '_'
  else inRanges c.toNat identifierStartRanges

/-- Identifier starts, digits, marks, connectors and the two zero width joiners. -/
def isIdentifierPart (c : Char) : Bool :=
  if c.toNat < 128 then isAsciiLetter c || isDecimalDigit c || c == '$' || c == '_'
  else inRanges c.toNat identifierStartRanges || inRanges c.toNat identifierPartRanges

/-- A name that can be written without quotes after a dot. -/
def isIdentifierName (text : String) : Bool :=
  match text.toList with
  | [] => false
  | c :: rest => isIdentifierStart c && rest.all isIdentifierPart

def isLineEnd (c : Char) : Bool :=
  c == '\n' || c == '\x0d' || c.toNat == 0x2028 || c.toNat == 0x2029

/-- The lines of a text. -/
def linesOf : List Char → List (List Char)
  | [] => [[]]
  | c :: rest =>
    if isLineEnd c then [] :: linesOf rest
    else match linesOf rest with
      | line :: lines => (c :: line) :: lines
      | [] => [[c]]

/-- White space between tokens that is no line end. -/
def isBlank (c : Char) : Bool :=
  c == ' ' || c == '\t' ||
    inRanges c.toNat [(0x0b, 0x0c), (0x85, 0x85), (0xa0, 0xa0), (0x1680, 0x1680),
      (0x2000, 0x200b), (0x202f, 0x202f), (0x205f, 0x205f), (0x3000, 0x3000), (0xfeff, 0xfeff)]

/-- The value of a hexadecimal digit. -/
def hexDigit? (c : Char) : Option Nat :=
  if '0' ≤ c && c ≤ '9' then some (c.toNat - 48)
  else if 'a' ≤ c && c ≤ 'f' then some (c.toNat - 87)
  else if 'A' ≤ c && c ≤ 'F' then some (c.toNat - 55)
  else none

/-- The number that digits spell in the given base. -/
def digitsValue (base : Nat) (digits : List Char) : Nat :=
  digits.foldl (fun n c => match hexDigit? c with
    | some d => n * base + d
    | none => n) 0

theorem inRanges_cons_of_le {n low high : Nat} {rest : List (Nat × Nat)} (h : low ≤ n)
    (h' : n ≤ high) : inRanges n ((low, high) :: rest) = true := by
  simp [inRanges, Nat.not_lt.2 h, h']

theorem isIdentifierPart_of_isIdentifierStart {c : Char} (h : isIdentifierStart c = true) :
    isIdentifierPart c = true := by
  unfold isIdentifierStart at h
  unfold isIdentifierPart
  split at h <;> rename_i hc <;> simp only [hc, if_true, if_false] <;> grind

end LiveNotes.Script
