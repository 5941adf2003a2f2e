import LiveNotes.Settings
import LiveNotes.Text.Bytes

/-! Places in a document, as lines and columns that are both counted from one. -/

namespace LiveNotes.Document

open Text

structure Position where
  line : Nat
  column : Nat
  deriving DecidableEq, Repr, Inhabited

namespace Position

/-- What keeps a text from being a position. -/
inductive Fault where
  /-- There is no colon between two parts. -/
  | form (text : String)
  | number (text : String)
  /-- A line or a column is zero. -/
  | zero
  deriving DecidableEq, Repr

def Fault.message : Fault → String
  | .form text => "invalid cursor '" ++ text ++ "', expected LINE:COL"
  | .number text => "invalid number '" ++ text ++ "'"
  | .zero => "cursor positions are 1-based"

/-- A number of at most 64 bits in decimal digits, behind a plus sign or not. -/
def number? (cs : List Char) : Option Nat :=
  let digits := match cs with
    | '+' :: rest => rest
    | _ => cs
  let value := digits.foldl (fun n c => n * 10 + (c.toNat - 48)) 0
  if digits ≠ [] && digits.all Char.isDigit && value ≤ maxWord then some value else none

def readNumber (cs : List Char) : Except Fault Nat :=
  match number? (trimBoth isWhiteSpace cs) with
  | some n => .ok n
  | none => .error (.number (String.ofList cs))

/-- Reads a position as `LINE:COL`. -/
def parse (text : String) : Except Fault Position :=
  match splitAtFirst [':'] text.toList with
  | none => .error (.form text)
  | some (line, column) => do
    let line ← readNumber line
    let column ← readNumber column
    if line = 0 || column = 0 then .error .zero else pure ⟨line, column⟩

/-- The byte at a position in lines that follow each other, the first of which starts at `start`. -/
def byteIn (column : Nat) : (start line : Nat) → List (List Char) → Nat
  | start, _, [] => start
  | start, 0, piece :: _ => start + byteLength ((dropEnd (· == '\x0d') piece).take column)
  | start, _ + 1, [piece] => start + byteLength piece
  | start, line + 1, piece :: pieces => byteIn column (start + byteLength piece + 1) line pieces

/-- The byte at a position. Behind the last character of a line it is that of the line break, and
behind the last line it is the end of the text. -/
def byteOffset (p : Position) (text : String) : Nat :=
  byteIn (p.column - 1) 0 (p.line - 1) (splitChar '\n' text.toList)

end Position

end LiveNotes.Document
