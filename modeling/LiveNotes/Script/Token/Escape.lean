import LiveNotes.Script.Character

/-! Places in a text, and the escapes behind a backslash. Positions count bytes. Each reader takes the
place of its first character and returns what it read with the place that follows; a bound on the
number of steps is met by any number from the length of the text on. -/

namespace LiveNotes.Script

/-- A place in a text: what follows, and its position. -/
structure Place where
  rest : List Char
  pos : Nat
  deriving Repr, DecidableEq

namespace Place

def step (c : Char) (rest : List Char) (p : Place) : Place := ⟨rest, p.pos + c.utf8Size⟩

/-- The place behind the next `n` characters, each of one byte. -/
def skip (n : Nat) (p : Place) : Place := ⟨p.rest.drop n, p.pos + n⟩

/-- The characters in front that satisfy `f`, and the place behind them. -/
def takeWhile (f : Char → Bool) (p : Place) : List Char × Place :=
  go p.rest p.pos
where
  go : List Char → Nat → List Char × Place
    | [], pos => ([], ⟨[], pos⟩)
    | c :: rest, pos =>
      if f c then
        let (taken, after) := go rest (pos + c.utf8Size)
        (c :: taken, after)
      else ([], ⟨c :: rest, pos⟩)

end Place

/-! ### Code points by number -/

/-- The value of hexadecimal digits in front, up to a closing brace, which is consumed. -/
def readHexBrace : Nat → Option Nat → Place → Option (Nat × Place)
  | 0, _, _ => none
  | fuel + 1, acc, p =>
    match p.rest with
    | [] => none
    | c :: rest =>
      if c == '}' then acc.map (·, p.step c rest)
      else match hexDigit? c with
        | none => none
        | some d =>
          let value := acc.getD 0 * 16 + d
          if value > 0x10ffff then none else readHexBrace fuel (some value) (p.step c rest)

/-- The value of exactly `n` hexadecimal digits in front. -/
def readHex : Nat → Nat → Place → Option (Nat × Place)
  | 0, acc, p => some (acc, p)
  | n + 1, acc, p =>
    match p.rest with
    | [] => none
    | c :: rest =>
      match hexDigit? c with
      | none => none
      | some d => readHex n (acc * 16 + d) (p.step c rest)

/-- The code point of an escape that starts behind `\u`. -/
def readUnicodeEscape (fuel : Nat) (p : Place) : Option (Nat × Place) :=
  match p.rest with
  | '{' :: rest => readHexBrace fuel none (p.step '{' rest)
  | _ => readHex 4 0 p

def isLowSurrogate (n : Nat) : Bool := 0xdc00 ≤ n && n ≤ 0xdfff

def isHighSurrogate (n : Nat) : Bool := 0xd800 ≤ n && n ≤ 0xdbff

def isSurrogate (n : Nat) : Bool := 0xd800 ≤ n && n ≤ 0xdfff

/-- A high surrogate joins with the low one that an escape of four digits puts right behind it. -/
def joinSurrogate (high : Nat) (p : Place) : Nat × Place :=
  if !isHighSurrogate high then (high, p)
  else match p.rest with
    | '\x5c' :: 'u' :: _ =>
      match readHex 4 0 (p.skip 2) with
      | some (low, after) =>
        if isLowSurrogate low then (0x10000 + (high - 0xd800) * 0x400 + (low - 0xdc00), after)
        else (high, p)
      | none => (high, p)
    | _ => (high, p)

/-- As `readUnicodeEscape`, with two escapes of four digits for a code point that takes two. -/
def readCodePoint (fuel : Nat) (p : Place) : Option (Nat × Place) :=
  (readUnicodeEscape fuel p).map fun (n, after) =>
    match p.rest with
    | '{' :: _ => (n, after)
    | _ => joinSurrogate n after

def octalDigit? (c : Char) : Option Nat :=
  if '0' ≤ c && c ≤ '7' then some (c.toNat - 48) else none

/-- An escape of up to three octal digits, below 256, of which the first is `d`. -/
def readOctal (d : Nat) (p : Place) : Nat × Place :=
  match p.rest with
  | a :: rest =>
    match octalDigit? a with
    | none => (d, p)
    | some x =>
      let two := p.step a rest
      if d > 3 then (d * 8 + x, two)
      else match rest with
        | b :: rest' =>
          match octalDigit? b with
          | some y => ((d * 8 + x) * 8 + y, two.step b rest')
          | none => (d * 8 + x, two)
        | [] => (d * 8 + x, two)
  | [] => (d, p)

/-! ### Escapes -/

/-- What stands for itself in an escape, or has a short name. -/
def simpleEscape (c : Char) : Char :=
  match c with
  | 'n' => '\n'
  | 'r' => '\x0d'
  | 't' => '\t'
  | 'b' => '\x08'
  | 'v' => '\x0b'
  | 'f' => '\x0c'
  | _ => c

/-- An escape of digits of which the first is `c`. Only strings may hold other ones than `\0`. -/
def readDigitEscape (octal : Bool) (c : Char) (p : Place) : Option (List Nat × Place) :=
  match octal, octalDigit? c with
  | true, some d =>
    let (n, after) := readOctal d p
    some ([n], after)
  | true, none => some ([c.toNat], p)
  | false, _ =>
    if c == '0' && !((p.rest.head?.map isDecimalDigit).getD false) then some ([0], p) else none

/-- The code points of the escape behind a backslash: one, or none for the end of a line. -/
def readEscape (octal : Bool) (fuel : Nat) (p : Place) : Option (List Nat × Place) :=
  match p.rest with
  | [] => none
  | 'x' :: _ => (readHex 2 0 (p.skip 1)).map fun (n, after) => ([n], after)
  | 'u' :: _ => (readCodePoint fuel (p.skip 1)).map fun (n, after) => ([n], after)
  | '\x0d' :: '\n' :: _ => some ([], p.skip 2)
  | c :: rest =>
    let after := p.step c rest
    if isLineEnd c then some ([], after)
    else if isDecimalDigit c then readDigitEscape octal c after
    else some ([(simpleEscape c).toNat], after)

/-- The code points of a string up to its closing quote `q`. -/
def readStringBody (q : Char) : Nat → List Nat → Place → Option (List Nat × Place)
  | 0, _, _ => none
  | fuel + 1, acc, p =>
    match p.rest with
    | [] => none
    | c :: rest =>
      let after := p.step c rest
      if c == q then some (acc.reverse, after)
      else if c == '\n' || c == '\x0d' then none
      else if c != '\x5c' then readStringBody q fuel (c.toNat :: acc) after
      else match readEscape true fuel after with
        | none => none
        | some (points, place) => readStringBody q fuel (points.reverse ++ acc) place

/-! ### Templates -/

/-- Raw text of a template from `p` to its end or to the next substitution; whether it ended. -/
def readQuasi : Nat → List Char → Place → Option (List Char × Bool × Place)
  | 0, _, _ => none
  | fuel + 1, acc, p =>
    match p.rest with
    | [] => none
    | '\x60' :: _ => some (acc.reverse, true, p.skip 1)
    | '$' :: '{' :: _ => some (acc.reverse, false, p.skip 2)
    | '\x5c' :: '\x0d' :: '\n' :: _ => readQuasi fuel ('\n' :: '\x5c' :: acc) (p.skip 3)
    | '\x5c' :: '\x0d' :: _ => readQuasi fuel ('\n' :: '\x5c' :: acc) (p.skip 2)
    | '\x5c' :: e :: rest => readQuasi fuel (e :: '\x5c' :: acc) ⟨rest, p.pos + 1 + e.utf8Size⟩
    | '\x0d' :: '\n' :: _ => readQuasi fuel ('\n' :: acc) (p.skip 2)
    | '\x0d' :: _ => readQuasi fuel ('\n' :: acc) (p.skip 1)
    | c :: rest => readQuasi fuel (c :: acc) (p.step c rest)

/-- The code points that raw text of a template stands for, unless it holds a bad escape. -/
def quasiPoints? : Nat → List Nat → Place → Option (List Nat)
  | 0, _, _ => none
  | fuel + 1, acc, p =>
    match p.rest with
    | [] => some acc.reverse
    | c :: rest =>
      if c != '\x5c' then quasiPoints? fuel (c.toNat :: acc) (p.step c rest)
      else match readEscape false fuel (p.step c rest) with
        | none => none
        | some (points, place) => quasiPoints? fuel (points.reverse ++ acc) place

/-- As `quasiPoints?`, from a whole raw text. -/
def pointsOfQuasi? (raw : List Char) : Option (List Nat) :=
  quasiPoints? (raw.length + 1) [] ⟨raw, 0⟩

/-! ### Text of code points -/

/-- Four hexadecimal digits. -/
def hexFour (n : Nat) : List Char :=
  [Nat.digitChar (n / 0x1000 % 16), Nat.digitChar (n / 0x100 % 16), Nat.digitChar (n / 16 % 16),
    Nat.digitChar (n % 16)]

/-- The text of code points. When one of them is a surrogate, it and U+FFFD are followed by their
hexadecimal digits, so that they can be told apart. -/
def textOfCodePoints (points : List Nat) : String × Bool :=
  let marked := points.any isSurrogate
  let one (n : Nat) : List Char :=
    if isSurrogate n || (marked && n == 0xfffd) then Char.ofNat 0xfffd :: hexFour n
    else [Char.ofNat n]
  (String.ofList (points.flatMap one), marked)

example : (pointsOfQuasi? "a\\n".toList).isSome = true := by decide

example : pointsOfQuasi? "\\1".toList = none := by decide

end LiveNotes.Script
