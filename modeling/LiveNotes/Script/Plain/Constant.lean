import LiveNotes.Decimal.Binary64
import LiveNotes.Script.NumberText
import LiveNotes.Script.Token.Escape
import LiveNotes.Script.Tree

/-! The values of constant expressions, which the members of enumerations are given. -/

namespace LiveNotes.Script.Plain

open LiveNotes.Decimal

inductive Constant where
  | number (value : Binary64)
  | text (value : String)
  deriving DecidableEq, Repr

/-- The text of a number inside a string. -/
def numberString (v : Binary64) : String :=
  match v with
  | .nan => "NaN"
  | .infinity s => if s then "-Infinity" else "Infinity"
  | .finite s m e =>
    if m = 0 then "0" else (if s then "-" else "") ++ String.ofList (plainDigits (shortest m e))

def Constant.toText : Constant → String
  | .number v => numberString v
  | .text s => s

/-- A number as a signed whole number of 32 bits. -/
def toInt32 (v : Binary64) : Int :=
  match v with
  | .finite s m e =>
    let (n, d) := Binary64.ratio m e
    Int.bmod (if s then -(n / d : Nat) else (n / d : Nat)) (Nat.pow 2 32)
  | _ => 0

/-- As `toInt32`, without a sign. -/
def toUInt32 (v : Binary64) : Nat := (toInt32 v % Nat.pow 2 32).toNat

/-- The bits of a number of 32 bits, as a natural number, back to a signed one. -/
def signed (n : Nat) : Binary64 := .ofInt (Int.bmod n (Nat.pow 2 32))

def numberOp (op : BinaryOp) (a b : Binary64) : Option Binary64 :=
  let shift := toUInt32 b % 32
  match op with
  | .add => some (a.add b)
  | .subtract => some (a.sub b)
  | .multiply => some (a.mul b)
  | .divide => some (a.div b)
  | .remainder => some (a.rem b)
  | .bitOr => some (signed (toUInt32 a ||| toUInt32 b))
  | .bitAnd => some (signed (toUInt32 a &&& toUInt32 b))
  | .bitXor => some (signed (toUInt32 a ^^^ toUInt32 b))
  | .shiftLeft => some (signed (toUInt32 a * Nat.pow 2 shift % Nat.pow 2 32))
  | .shiftRight => some (.ofInt (toInt32 a / Nat.pow 2 shift))
  | .shiftRightZero => some (.ofNat (toUInt32 a / Nat.pow 2 shift))
  | .power => some (a.power b)
  | _ => none

def constantOp (op : BinaryOp) (a b : Constant) : Option Constant :=
  match a, b with
  | .number x, .number y => (numberOp op x y).map .number
  | _, _ => if op == .add then some (.text (a.toText ++ b.toText)) else none

/-- The value of an operator in front of a constant. A text has no number to work on: it is undefined
when negated, and zero to an operator on bits. -/
def constantUnary (op : UnaryOp) (v : Constant) : Option Constant :=
  match op, v with
  | .minus, .number x => some (.number x.neg)
  | .plus, .number x => some (.number x)
  | .bitNot, .number x => some (.number (.ofInt (-(toInt32 x) - 1)))
  | _, .number _ => none
  | .minus, .text _ => some (.number .nan)
  | .bitNot, .text _ => some (.number (.ofInt (-1)))
  | _, .text s => some (.text s)

/-- The text that raw text of a template stands for. -/
def quasiText? (raw : String) : Option String :=
  match (pointsOfQuasi? raw.toList).map textOfCodePoints with
  | some (text, false) => some text
  | _ => none

/-- The text of a key in brackets, in quotes or in a template without substitutions. -/
def literalKey? (key : Tree) : Option String :=
  match key with
  | .node (.string x false) _ _ => some x
  | .node .template _ [.node (.quasi raw) _ _] => quasiText? raw
  | _ => none

mutual

/-- The value of an expression, where `known` gives the values of names and of members. -/
def constant? (known : List String → Option Constant) : Tree → Option Constant
  | .node label _ ks =>
    match label with
    | .number ds => some (.number (numberValue ds))
    | .string v false => some (.text v)
    | .read "Infinity" => some (.number (.infinity false))
    | .read "NaN" => some (.number .nan)
    | .read x => known [x]
    | .member x false => match ks with
      | [.node (.read e) _ _] => known [e, x]
      | _ => none
    | .index false => match ks with
      | [.node (.read e) _ _, key] => match literalKey? key with
        | some x => known [e, x]
        | none => none
      | _ => none
    | .paren => match ks with
      | [e] => constant? known e
      | _ => none
    | .template => (templateText? known ks).map .text
    | .unary op => match ks with
      | [e] => match constant? known e with
        | some v => constantUnary op v
        | none => none
      | _ => none
    | .binary op => match ks with
      | [l, r] => match constant? known l, constant? known r with
        | some a, some b => constantOp op a b
        | _, _ => none
      | _ => none
    | _ => none

def templateText? (known : List String → Option Constant) : List Tree → Option String
  | [] => some ""
  | t :: ts =>
    match (match t.label with
      | .quasi raw => quasiText? raw
      | _ => (constant? known t).map Constant.toText), templateText? known ts with
    | some a, some b => some (a ++ b)
    | _, _ => none

end

end LiveNotes.Script.Plain
