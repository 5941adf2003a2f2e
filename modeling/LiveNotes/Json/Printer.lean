import LiveNotes.Decimal.Shortest
import LiveNotes.Json.Value
import LiveNotes.Text.Quoted

/-! Values as JSON texts: in one line without blanks, or with a line for each item. -/

namespace LiveNotes.Json

open LiveNotes.Decimal LiveNotes.Text

def zeros (n : Int) : List Char := List.replicate n.toNat '0'

/-- Digits without an exponent part when the point stands less than five zeros in front of them or
at most sixteen places behind their start. -/
def floatDigits (d : Digits) : List Char :=
  let ds := digitsOf d.digits
  let point : Int := ds.length + d.exponent
  if 0 ≤ d.exponent && point ≤ 16 then ds ++ zeros d.exponent ++ ['.', '0']
  else if 0 < point && point ≤ 16 then ds.take point.toNat ++ '.' :: ds.drop point.toNat
  else if -5 < point && point ≤ 0 then '0' :: '.' :: zeros (-point) ++ ds
  else
    let mantissa := match ds with
      | c :: c' :: rest => c :: '.' :: c' :: rest
      | _ => ds
    let e := point - 1
    mantissa ++ 'e' :: (if e < 0 then ['-'] else []) ++ digitsOf e.natAbs

/-- The shortest decimal of a number. What is no number has no text but `null`. -/
def floatText : Binary64 → List Char
  | .nan | .infinity _ => "null".toList
  | .finite s m e =>
    (if s then ['-'] else []) ++ (if m = 0 then "0.0".toList else floatDigits (shortest m e))

/-- The text of a value that holds no others. -/
def scalarText : Json → List Char
  | .null => "null".toList
  | .bool b => (if b then "true" else "false").toList
  | .int n => (toString n).toList
  | .float v => floatText v
  | .text s => '\x22' :: quoteChars s.toList ++ ['\x22']
  | .array _ => "[]".toList
  | .object _ => "\x7b\x7d".toList

def keyText (name : String) : List Char := '\x22' :: quoteChars name.toList ++ ['\x22']

mutual

/-- Adds a value in one line to the characters so far, latest first. -/
def compactOnto (acc : List Char) : Json → List Char
  | .array items => ']' :: itemsOnto ('[' :: acc) true items
  | .object fields => '}' :: fieldsOnto ('{' :: acc) true fields
  | .null => (scalarText .null).reverseAux acc
  | .bool b => (scalarText (.bool b)).reverseAux acc
  | .int n => (scalarText (.int n)).reverseAux acc
  | .float v => (scalarText (.float v)).reverseAux acc
  | .text s => (scalarText (.text s)).reverseAux acc

def itemsOnto (acc : List Char) (first : Bool) : List Json → List Char
  | [] => acc
  | v :: vs => itemsOnto (compactOnto (if first then acc else ',' :: acc) v) false vs

def fieldsOnto (acc : List Char) (first : Bool) : List (String × Json) → List Char
  | [] => acc
  | (name, v) :: fields =>
    let acc := if first then acc else ',' :: acc
    fieldsOnto (compactOnto (':' :: (keyText name).reverseAux acc) v) false fields

end

/-- A value in one line. -/
def compact (v : Json) : String := String.ofList (compactOnto [] v).reverse

def lineOnto (indent : Nat) (acc : List Char) : List Char :=
  List.replicate (2 * indent) ' ' ++ '\n' :: acc

mutual

/-- As `compactOnto`, with each item on a line of its own. -/
def prettyOnto (indent : Nat) (acc : List Char) : Json → List Char
  | .array [] => (scalarText (.array [])).reverseAux acc
  | .array (v :: vs) =>
    ']' :: lineOnto indent (prettyItemsOnto (indent + 1) ('[' :: acc) true (v :: vs))
  | .object [] => (scalarText (.object [])).reverseAux acc
  | .object (f :: fs) =>
    '}' :: lineOnto indent (prettyFieldsOnto (indent + 1) ('{' :: acc) true (f :: fs))
  | .null => (scalarText .null).reverseAux acc
  | .bool b => (scalarText (.bool b)).reverseAux acc
  | .int n => (scalarText (.int n)).reverseAux acc
  | .float v => (scalarText (.float v)).reverseAux acc
  | .text s => (scalarText (.text s)).reverseAux acc

def prettyItemsOnto (indent : Nat) (acc : List Char) (first : Bool) : List Json → List Char
  | [] => acc
  | v :: vs =>
    let acc := lineOnto indent (if first then acc else ',' :: acc)
    prettyItemsOnto indent (prettyOnto indent acc v) false vs

def prettyFieldsOnto (indent : Nat) (acc : List Char) (first : Bool) :
    List (String × Json) → List Char
  | [] => acc
  | (name, v) :: fields =>
    let acc := lineOnto indent (if first then acc else ',' :: acc)
    let acc := ' ' :: ':' :: (keyText name).reverseAux acc
    prettyFieldsOnto indent (prettyOnto indent acc v) false fields

end

/-- A value with a line for each item, two blanks deeper than what holds it. -/
def pretty (v : Json) : String := String.ofList (prettyOnto 0 [] v).reverse

end LiveNotes.Json
