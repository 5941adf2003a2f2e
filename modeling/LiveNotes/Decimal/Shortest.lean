import LiveNotes.Decimal.Binary64

/-! The shortest decimal that reads back as a given number. For 1, 2, .. 17 digits the two decimals
next to the number are tested; the first count with a hit wins, and of two hits the nearer one. -/

namespace LiveNotes.Decimal

/-- `digits * 10 ^ exponent`, where the last digit is not zero. -/
structure Digits where
  digits : Nat
  exponent : Int
  deriving DecidableEq, Repr, Inhabited

/-- Drops zeros at the end; `fuel` bounds their number. -/
def Digits.trim : Nat → Digits → Digits
  | 0, d => d
  | fuel + 1, d =>
    if d.digits ≠ 0 ∧ d.digits % 10 = 0 then trim fuel ⟨d.digits / 10, d.exponent + 1⟩ else d

/-- Whether `a / b < c / d` for positive denominators. -/
def ratioLess (a b c d : Nat) : Bool := a * d < c * b

/-- A ratio times a power of ten. -/
def timesTen (n d : Nat) (k : Int) : Nat × Nat :=
  if 0 ≤ k then (n * Nat.pow 10 k.toNat, d) else (n, d * Nat.pow 10 (-k).toNat)

/-- The exponent `k` with `10 ^ k ≤ n / d < 10 ^ (k + 1)`, for a positive ratio. -/
def decimalExponent (n d : Nat) : Int :=
  let guess : Int := (((n.log2 : Int) - (d.log2 : Int)) * 30103) / 100000
  settle 4 (guess - 1)
where
  settle : Nat → Int → Int
    | 0, k => k
    | fuel + 1, k =>
      let (p, q) := timesTen 1 1 (k + 1)
      if ratioLess n d p q then k else settle fuel (k + 1)

/-- The numbers that round to `m * 2 ^ e`, in quarters of `2 ^ e`: from `low` to `high`, ends
included when the mantissa is even. -/
def roundingRange (m : Nat) (e : Int) : Nat × Nat × Bool :=
  (if m = Nat.pow 2 52 ∧ -1074 < e then 4 * m - 1 else 4 * m - 2, 4 * m + 2, m % 2 = 0)

/-- Whether `digits * 10 ^ k` rounds to `m * 2 ^ e`. -/
def readsBack (m : Nat) (e : Int) (digits : Nat) (k : Int) : Bool :=
  let (low, high, closed) := roundingRange m e
  let (ln, ld) := Binary64.ratio low (e - 2)
  let (hn, hd) := Binary64.ratio high (e - 2)
  let (n, d) := timesTen digits 1 k
  if closed then !ratioLess n d ln ld && !ratioLess hn hd n d
  else ratioLess ln ld n d && ratioLess n d hn hd

/-- The better of the two decimals with exponent `k` next to `m * 2 ^ e`, if one reads back. -/
def nearestAt (m : Nat) (e : Int) (k : Int) : Option Digits :=
  let (n, d) := Binary64.ratio m e
  let (n', d') := timesTen n d (-k)
  let low := n' / d'
  let r := n' % d'
  let lowHit := low ≠ 0 && readsBack m e low k
  let highHit := readsBack m e (low + 1) k
  if lowHit && highHit then
    some ⟨if 2 * r < d' then low else if d' < 2 * r then low + 1
      else if low % 2 = 0 then low else low + 1, k⟩
  else if lowHit then some ⟨low, k⟩
  else if highHit then some ⟨low + 1, k⟩
  else none

/-- The shortest decimal for a positive number `m * 2 ^ e`. -/
def shortest (m : Nat) (e : Int) : Digits :=
  let (n, d) := Binary64.ratio m e
  let top := decimalExponent n d
  go m e top 17 top
where
  go (m : Nat) (e top : Int) : Nat → Int → Digits
    | 0, k => (nearestAt m e k).getD ⟨m, e⟩
    | fuel + 1, k =>
      match nearestAt m e k with
      | some found => found.trim 20
      | none => go m e top fuel (k - 1)

/-- The decimal digits of a number. -/
def digitsOf (n : Nat) : List Char := Nat.toDigits 10 n

end LiveNotes.Decimal
