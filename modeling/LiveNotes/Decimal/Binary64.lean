/-! Floating-point numbers of 64 bits as exact values: a sign, a mantissa below 2^53 and a power of
two. Arithmetic is done on fractions of natural numbers, which are then rounded to the nearest such
number, a tie going to the even mantissa. Powers are no fractions in general, so the machine's own
numbers are asked for the last bit of those. -/

namespace LiveNotes.Decimal

/-- A finite number is `mantissa * 2 ^ exponent`. Numbers made by `ofRatio` have the greatest
mantissa below 2^53 that an exponent of at least -1074 leaves room for. -/
inductive Binary64 where
  | nan
  | infinity (negative : Bool)
  | finite (negative : Bool) (mantissa : Nat) (exponent : Int)
  deriving DecidableEq, Repr, Inhabited

/-- `q` or `q + 1`, whichever is nearer to `q + r / d`; the even one when both are. -/
def roundEven (q r d : Nat) : Nat :=
  if 2 * r < d then q
  else if d < 2 * r then q + 1
  else if q % 2 = 0 then q else q + 1

/-- The fraction `num / den` divided by a power of two, as quotient, remainder and divisor. -/
def scaleDown (num den : Nat) (exponent : Int) : Nat × Nat × Nat :=
  if 0 ≤ exponent then
    let d := den * Nat.pow 2 exponent.toNat
    (num / d, num % d, d)
  else
    let n := num * Nat.pow 2 (-exponent).toNat
    (n / den, n % den, den)

namespace Binary64

def zero (negative : Bool) : Binary64 := .finite negative 0 (-1074)

/-- The exponent at which the mantissa of `num / den` has 53 bits, or -1074 when that is greater. -/
def exponentFor (num den : Nat) : Int :=
  let guess : Int := (num.log2 : Int) - (den.log2 : Int) - 52
  let (q, _, _) := scaleDown num den guess
  max (-1074) (if q < Nat.pow 2 52 then guess - 1 else if Nat.pow 2 53 ≤ q then guess + 1 else guess)

/-- The number nearest to `num / den`, where `den` is positive. -/
def ofRatio (negative : Bool) (num den : Nat) : Binary64 :=
  if num = 0 then zero negative
  else
    let e := exponentFor num den
    let (q, r, d) := scaleDown num den e
    let m := roundEven q r d
    let (m, e) := if m = Nat.pow 2 53 then (Nat.pow 2 52, e + 1) else (m, e)
    if 971 < e then .infinity negative else .finite negative m e

/-- The number nearest to `digits * 10 ^ exponent`. -/
def ofDecimal (negative : Bool) (digits : Nat) (exponent : Int) : Binary64 :=
  if digits = 0 then zero negative
  else if 400 < exponent then .infinity negative
  else if exponent < -(400 + (digits.log2 : Int)) then zero negative
  else if 0 ≤ exponent then ofRatio negative (digits * Nat.pow 10 exponent.toNat) 1
  else ofRatio negative digits (Nat.pow 10 (-exponent).toNat)

def ofNat (n : Nat) : Binary64 := ofRatio false n 1

def ofInt (n : Int) : Binary64 := ofRatio (n < 0) n.natAbs 1

/-- Numerator and denominator of a finite mantissa and exponent. -/
def ratio (mantissa : Nat) (exponent : Int) : Nat × Nat :=
  if 0 ≤ exponent then (mantissa * Nat.pow 2 exponent.toNat, 1)
  else (mantissa, Nat.pow 2 (-exponent).toNat)

def neg : Binary64 → Binary64
  | .nan => .nan
  | .infinity s => .infinity !s
  | .finite s m e => .finite (!s) m e

/-- The nearest number to the sum of two signed fractions. -/
def addRatios (s : Bool) (n d : Nat) (s' : Bool) (n' d' : Nat) : Binary64 :=
  let a : Int := (if s then -1 else 1) * (n * d' : Nat)
  let b : Int := (if s' then -1 else 1) * (n' * d : Nat)
  let sum := a + b
  if sum = 0 then zero (s && s') else ofRatio (sum < 0) sum.natAbs (d * d')

def add : Binary64 → Binary64 → Binary64
  | .nan, _ | _, .nan => .nan
  | .infinity s, .infinity s' => if s = s' then .infinity s else .nan
  | .infinity s, _ | _, .infinity s => .infinity s
  | .finite s m e, .finite s' m' e' =>
    let (n, d) := ratio m e
    let (n', d') := ratio m' e'
    addRatios s n d s' n' d'

def sub (a b : Binary64) : Binary64 := add a b.neg

def mul : Binary64 → Binary64 → Binary64
  | .nan, _ | _, .nan => .nan
  | .infinity s, .infinity s' => .infinity (s != s')
  | .infinity s, .finite s' m _ | .finite s' m _, .infinity s =>
    if m = 0 then .nan else .infinity (s != s')
  | .finite s m e, .finite s' m' e' =>
    let (n, d) := ratio m e
    let (n', d') := ratio m' e'
    ofRatio (s != s') (n * n') (d * d')

def div : Binary64 → Binary64 → Binary64
  | .nan, _ | _, .nan => .nan
  | .infinity _, .infinity _ => .nan
  | .infinity s, .finite s' _ _ => .infinity (s != s')
  | .finite s _ _, .infinity s' => zero (s != s')
  | .finite s m e, .finite s' m' e' =>
    if m' = 0 then (if m = 0 then .nan else .infinity (s != s'))
    else
      let (n, d) := ratio m e
      let (n', d') := ratio m' e'
      ofRatio (s != s') (n * d') (d * n')

/-- The rest of a division that is cut towards zero; it has the sign of the dividend. -/
def rem : Binary64 → Binary64 → Binary64
  | .nan, _ | _, .nan | .infinity _, _ => .nan
  | a, .infinity _ => a
  | .finite s m e, .finite _ m' e' =>
    if m' = 0 then .nan
    else
      let (n, d) := ratio m e
      let (n', d') := ratio m' e'
      ofRatio s (n * d' % (n' * d)) (d * d')

/-- The whole number nearest to a finite number, halves going away from zero. -/
def roundAway : Binary64 → Option Int
  | .finite s m e =>
    let (n, d) := ratio m e
    let q := (2 * n + d) / (2 * d)
    some (if s then -(q : Int) else q)
  | _ => none

end Binary64

theorem roundEven_zero (q d : Nat) (h : 0 < d) : roundEven q 0 d = q := by
  simp [roundEven, h]

theorem roundEven_le (q r d : Nat) : roundEven q r d ≤ q + 1 := by
  unfold roundEven
  split
  · omega
  · split
    · omega
    · split <;> omega

theorem le_roundEven (q r d : Nat) : q ≤ roundEven q r d := by
  unfold roundEven
  split
  · omega
  · split
    · omega
    · split <;> omega

namespace Binary64

/-- The number in the machine's form. -/
def toFloat : Binary64 → Float
  | .nan => 0 / 0
  | .infinity s => if s then -1 / 0 else 1 / 0
  | .finite s m e =>
    let magnitude := (Float.ofNat m).scaleB e
    if s then -magnitude else magnitude

/-- The number whose bits are those of `bits`: a sign, an exponent and a mantissa without its first
bit, unless the exponent is the least. -/
def ofBits (bits : Nat) : Binary64 :=
  let negative := bits / Nat.pow 2 63 % 2 = 1
  let exponent := bits / Nat.pow 2 52 % 2048
  let fraction := bits % Nat.pow 2 52
  if exponent = 2047 then (if fraction = 0 then .infinity negative else .nan)
  else if exponent = 0 then .finite negative fraction (-1074)
  else .finite negative (fraction + Nat.pow 2 52) ((exponent : Int) - 1075)

def ofFloat (f : Float) : Binary64 := ofBits f.toBits.toNat

def power (base exponent : Binary64) : Binary64 := ofFloat (base.toFloat.pow exponent.toFloat)

example : ofBits 0x3ff0000000000000 = .finite false 4503599627370496 (-52) := by decide

example : ofBits 0xfff0000000000000 = .infinity true := by decide

end Binary64

/-! Numbers as users write them: digits with a point and an exponent, or a word for what is no finite
number, behind a sign or not. -/

def isDigit (c : Char) : Bool := '0' ≤ c && c ≤ '9'

/-- The number that digits spell. -/
def ofDigits (ds : List Char) : Nat := ds.foldl (fun n c => n * 10 + (c.toNat - 48)) 0

/-- A sign and what follows it. -/
def takeSign (cs : List Char) : Bool × List Char :=
  match cs with
  | '-' :: rest => (true, rest)
  | '+' :: rest => (false, rest)
  | _ => (false, cs)

/-- The exponent that ends a number; none at all is zero. -/
def exponent? : List Char → Option Int
  | [] => some 0
  | c :: rest =>
    let (negative, ds) := takeSign rest
    if (c == 'e' || c == 'E') && !ds.isEmpty && ds.all isDigit then
      some (if negative then -(ofDigits ds : Int) else ofDigits ds)
    else none

/-- The number behind a sign. -/
def unsigned? (negative : Bool) (cs : List Char) : Option Binary64 :=
  let word := String.ofList (cs.map Char.toLower)
  if word == "inf" || word == "infinity" then some (.infinity negative)
  else if word == "nan" then some .nan
  else
    let (whole, rest) := cs.span isDigit
    let (fraction, rest) := match rest with
      | '.' :: rest => rest.span isDigit
      | _ => ([], rest)
    if whole.isEmpty && fraction.isEmpty then none
    else (exponent? rest).map fun e =>
      .ofDecimal negative (ofDigits (whole ++ fraction)) (e - fraction.length)

/-- The number nearest to what a text says; `none` when it is no number. -/
def Binary64.ofText? (s : String) : Option Binary64 :=
  let (negative, rest) := takeSign s.toList
  unsigned? negative rest

end LiveNotes.Decimal
