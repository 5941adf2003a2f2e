import LiveNotes.Decimal.Shortest
import LiveNotes.Script.Character

/-! The value of a number as a script writes it, and the shortest way to write a value. -/

namespace LiveNotes.Script

open LiveNotes.Decimal

/-- An exponent such as `e-7`. -/
def exponentValue (text : List Char) : Int :=
  match text with
  | _ :: '-' :: ds => -(digitsValue 10 ds : Int)
  | _ :: '+' :: ds => digitsValue 10 ds
  | _ :: ds => digitsValue 10 ds
  | [] => 0

/-- The number that a digit behind the digits of `v` makes, rounded. -/
def appendDigit (base : Nat) (v : Binary64) (digit : Nat) : Binary64 :=
  match v with
  | .finite _ m e =>
    let (n, d) := Binary64.ratio m e
    .ofNat (n / d * base + digit)
  | _ => v

/-- The value of digits in a base that is a power of two. More than `limit` digits are rounded one
after another. -/
def radixValue (base limit : Nat) (digits : List Char) : Binary64 :=
  let digits := digits.filter (· != '_')
  if digits.length ≤ limit then .ofNat (digitsValue base digits)
  else (digits.filterMap hexDigit?).foldl (appendDigit base) (.zero false)

/-- The value of a number literal. -/
def numberValue (literal : String) : Binary64 :=
  match literal.toList with
  | '0' :: 'x' :: ds => radixValue 16 16 ds
  | '0' :: 'o' :: ds => radixValue 8 21 ds
  | '0' :: 'b' :: ds => radixValue 2 64 ds
  | text =>
    let text := text.filter (· != '_')
    let (mantissa, exponent) := text.span fun c => c != 'e' && c != 'E'
    let (whole, fraction) := mantissa.span (· != '.')
    let fraction := fraction.drop 1
    .ofDecimal false (digitsValue 10 (whole ++ fraction)) (exponentValue exponent - fraction.length)

/-- The exponent of ten behind which digits are written with an exponent part. -/
def plainLimit : Int := 21

/-- Digits as scripts print them: without an exponent part from 1e-7 up to 1e21. -/
def plainDigits (d : Digits) : List Char :=
  let ds := digitsOf d.digits
  let k : Int := ds.length
  let n := k + d.exponent
  let zeros (i : Int) : List Char := List.replicate i.toNat '0'
  if k ≤ n && n ≤ plainLimit then ds ++ zeros (n - k)
  else if 0 < n && n ≤ plainLimit then ds.take n.toNat ++ '.' :: ds.drop n.toNat
  else if -6 < n && n ≤ 0 then '0' :: '.' :: zeros (-n) ++ ds
  else
    let mantissa := match ds with
      | [c] => [c]
      | c :: rest => c :: '.' :: rest
      | [] => []
    let e := n - 1
    mantissa ++ 'e' :: (if e < 0 then '-' else '+') :: digitsOf e.natAbs

/-- A shorter text for digits with many zeros behind them. -/
def foldZeros (text : List Char) : List Char :=
  let zeros := (text.reverse.takeWhile (· == '0')).length
  let folded := text.take (text.length - zeros) ++ 'e' :: digitsOf zeros
  if zeros > 0 && folded.length < text.length then folded else text

/-- A shorter text for digits with many zeros between them and the point in front. -/
def foldFraction (text : List Char) : List Char :=
  match text with
  | '.' :: '0' :: rest =>
    let digits := rest.dropWhile (· == '0')
    if digits.isEmpty then text
    else
      let folded := digits ++ 'e' :: '-' :: digitsOf (text.length - 1)
      if folded.length < text.length then folded else text
  | _ => text

/-- A shorter text for a mantissa with a point and an exponent part. -/
def foldPoint (text : List Char) : List Char :=
  let (whole, rest) := text.span (· != '.')
  match rest with
  | '.' :: rest =>
    let (fraction, exponent) := rest.span (· != 'e')
    match exponent with
    | 'e' :: e =>
      let value : Int := match e with
        | '-' :: ds => -(digitsValue 10 ds : Int)
        | ds => digitsValue 10 ds
      let value := value - fraction.length
      let folded := whole ++ fraction ++ 'e' :: (if value < 0 then ['-'] else []) ++
        digitsOf value.natAbs
      if folded.length < text.length then folded else text
    | _ => text
  | _ => text

/-- The shortest text for a positive number `m * 2 ^ e`. -/
def shortestText (m : Nat) (e : Int) : List Char :=
  let text := plainDigits (shortest m e)
  let (n, d) := Binary64.ratio m e
  let whole := n % d = 0
  if whole && n / d < 1000 then text
  else
    let text := match text with
      | '0' :: '.' :: rest => '.' :: rest
      | _ => text
    let text := text.filter (· != '+')
    let hex := '0' :: 'x' :: Nat.toDigits 16 (n / d)
    if whole && hex.length < text.length then foldPoint hex
    else foldPoint (foldZeros (if whole then text else foldFraction text))

/-- The text of a number that is neither negative nor undefined. -/
def numberText : Binary64 → List Char
  | .nan => "NaN".toList
  | .infinity _ => "Infinity".toList
  | .finite _ m e => if m = 0 then ['0'] else shortestText m e

end LiveNotes.Script
