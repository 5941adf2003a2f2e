import LiveNotes.Error
import LiveNotes.Json.Value
import LiveNotes.Script.Character
import LiveNotes.Text.Bytes

/-! Readers of JSON texts. A text that ends too early is told apart from one that is malformed. Values
that nobody asks for are skipped with fewer checks: their numbers may be out of range, their strings
may hold lone surrogates, and there is no limit on their depth. -/

namespace LiveNotes.Json

open LiveNotes.Decimal LiveNotes.Script

abbrev Reader := StateT (List Char) (Except JsonFault)

namespace Reader

def malformed {α : Type} : Reader α := throw .malformed

def unfinished {α : Type} : Reader α := throw .unfinished

def mismatch {α : Type} : Reader α := throw .mismatch

def isSpace (c : Char) : Bool := c == ' ' || c == '\n' || c == '\t' || c == '\x0d'

/-- The next character that is no white space, which stays in front. -/
def peek : Reader (Option Char) := do
  let rest := (← get).dropWhile isSpace
  set rest
  pure rest.head?

/-- Drops the next character. -/
def skip : Reader Unit := modify (·.drop 1)

/-- The word that starts with the next character. -/
def word (letters : List Char) : Reader Unit := do
  skip
  for c in letters.drop 1 do
    match ← get with
    | [] => unfinished
    | d :: rest => if c == d then set rest else malformed

/-! ### Strings -/

/-- Where the reader of a string stands. -/
inductive Within where
  | text
  /-- Behind a backslash. -/
  | escape
  /-- Among four digits, perhaps behind a leading surrogate. -/
  | digits (lead : Option Nat) (count value : Nat)
  /-- Behind a leading surrogate, and behind the backslash of the next one. -/
  | pair (lead : Nat)
  | pairEscape (lead : Nat)
  deriving Repr

/-- The character for a letter behind a backslash. -/
def escaped? (c : Char) : Option Char :=
  match c with
  | '\x22' | '\x5c' | '/' => some c
  | 'b' => some '\x08'
  | 'f' => some '\x0c'
  | 'n' => some '\n'
  | 'r' => some '\x0d'
  | 't' => some '\t'
  | _ => none

/-- What four digits lead to: a character, or a leading surrogate. -/
def unitStep (strict : Bool) (lead : Option Nat) (unit : Nat) :
    Except JsonFault (Within × Option Char) :=
  if !strict then .ok (.text, none)
  else match lead with
    | some high =>
      if 0xdc00 ≤ unit && unit ≤ 0xdfff then
        .ok (.text, some (Char.ofNat (0x10000 + (high - 0xd800) * 0x400 + (unit - 0xdc00))))
      else .error .malformed
    | none =>
      if 0xdc00 ≤ unit && unit ≤ 0xdfff then .error .malformed
      else if 0xd800 ≤ unit && unit ≤ 0xdbff then .ok (.pair unit, none)
      else .ok (.text, some (Char.ofNat unit))

/-- Reads up to the closing quote; `acc` holds the characters so far, latest first. -/
def stringRest (strict : Bool) : Within → List Char → List Char →
    Except JsonFault (String × List Char)
  | _, _, [] => .error .unfinished
  | .text, acc, c :: rest =>
    if c == '\x22' then .ok (String.ofList acc.reverse, rest)
    else if c == '\x5c' then stringRest strict .escape acc rest
    else if c.toNat < 32 then .error .malformed
    else stringRest strict .text (c :: acc) rest
  | .escape, acc, c :: rest =>
    if c == 'u' then stringRest strict (.digits none 0 0) acc rest
    else match escaped? c with
      | some e => stringRest strict .text (e :: acc) rest
      | none => .error .malformed
  | .digits lead count value, acc, c :: rest =>
    match hexDigit? c with
    | none => .error (if Text.byteLength (c :: rest) + count < 4 then .unfinished else .malformed)
    | some d =>
      if count < 3 then stringRest strict (.digits lead (count + 1) (value * 16 + d)) acc rest
      else match unitStep strict lead (value * 16 + d) with
        | .error e => .error e
        | .ok (within, some x) => stringRest strict within (x :: acc) rest
        | .ok (within, none) => stringRest strict within acc rest
  | .pair lead, acc, c :: rest =>
    if c == '\x5c' then stringRest strict (.pairEscape lead) acc rest else .error .malformed
  | .pairEscape lead, acc, c :: rest =>
    if c == 'u' then stringRest strict (.digits (some lead) 0 0) acc rest else .error .malformed

/-- A string from its opening quote on. -/
def string (strict : Bool) : Reader String := do
  let (s, rest) ← stringRest strict .text [] ((← get).drop 1)
  set rest
  pure s

/-! ### Numbers -/

def digitLimit : Nat := Nat.pow 2 64 - 1

def digit (c : Char) : Nat := c.toNat - 48

/-- Adds digits to a number of 64 bits as long as they fit in: the number and the digits left. -/
def addDigits (n : Nat) : List Char → Nat × List Char
  | [] => (n, [])
  | c :: cs => if digitLimit < n * 10 + digit c then (n, c :: cs) else addDigits (n * 10 + digit c) cs

/-- A number of 64 bits times a power of ten, in one rounding step or, where the power has no such
number itself, in several. -/
def scale : Nat → Binary64 → Int → Except JsonFault Binary64
  | 0, v, _ => .ok v
  | fuel + 1, v, e =>
    if e.natAbs ≤ 308 then
      let power := Binary64.ofDecimal false 1 e.natAbs
      if 0 ≤ e then
        match v.mul power with
        | .infinity _ => .error .malformed
        | p => .ok p
      else .ok (v.div power)
    else if v = Binary64.zero false then .ok v
    else if 0 ≤ e then .error .malformed
    else scale fuel (v.div (Binary64.ofDecimal false 1 308)) (e + 308)

/-- The digits of an exponent as a number, its sign left out. -/
def exponentDigits (digits : List Char) : Nat := digits.foldl (fun n c => n * 10 + digit c) 0

/-- The value of a number with a fraction or an exponent, or with too many digits. -/
def floatValue (negative : Bool) (whole fraction : List Char) (exponent : Int) :
    Except JsonFault Binary64 := do
  let (n, more) := addDigits 0 whole
  let (m, left) := addDigits n fraction
  let e : Int := more.length - ((fraction.length - left.length : Nat) : Int) + exponent
  let v ← scale 5 (Binary64.ofNat m) e
  pure (if negative then v.neg else v)

/-- The value of a whole number. -/
def wholeValue (negative : Bool) (whole : List Char) : Except JsonFault Json :=
  let (n, more) := addDigits 0 whole
  if !more.isEmpty then (floatValue negative whole [] 0).map .float
  else if !negative then .ok (.int n)
  else if n = 0 || Nat.pow 2 63 < n then .ok (.float (Binary64.ofNat n).neg)
  else .ok (.int (-n))

/-- Digits, of which there must be one. Where the text ends instead it is unfinished, or malformed
when the number is only skipped. -/
def someDigits (strict : Bool) : Reader (List Char) := do
  let (ds, rest) := (← get).span isDecimalDigit
  set rest
  if ds.isEmpty then
    if strict && rest.isEmpty then unfinished else malformed
  else pure ds

def number (strict : Bool) : Reader Json := do
  let negative := (← get).head? == some '-'
  if negative then skip
  let whole ← someDigits strict
  if whole.length > 1 && whole.head? == some '0' then malformed
  let fraction ← match ← get with
    | '.' :: rest => set rest; some <$> someDigits strict
    | _ => pure none
  let exponent ← match ← get with
    | c :: rest =>
      if c == 'e' || c == 'E' then do
        set rest
        let minus := rest.head? == some '-'
        if minus || rest.head? == some '+' then skip
        let ds ← someDigits strict
        pure (some (if minus then -(exponentDigits ds : Int) else exponentDigits ds))
      else pure none
    | [] => pure none
  if !strict then pure .null
  else match fraction, exponent with
    | none, none => wholeValue negative whole
    | _, _ => .float <$> (floatValue negative whole (fraction.getD []) (exponent.getD 0) :
        Except JsonFault Binary64)

/-! ### Values -/

/-- Repeats a step until it gives a result. -/
def loop {α β : Type} (step : α → Reader (α ⊕ β)) : Nat → α → Reader β
  | 0, _ => malformed
  | fuel + 1, a => do
    match ← step a with
    | .inl a => loop step fuel a
    | .inr b => pure b

/-- Whether another item follows in a list that ends with `close`; the next one is then in front. -/
def hasItem (close : Char) (first : Bool) : Reader Bool := do
  match ← peek with
  | none => unfinished
  | some c =>
    if c == close then pure false
    else if first then pure true
    else if c == ',' then
      skip
      match ← peek with
      | none => unfinished
      | some d => if d == close then malformed else pure true
    else malformed

/-- The name of a field and the colon behind it. -/
def fieldName (strict : Bool) : Reader String := do
  match ← peek with
  | some '\x22' => string strict
  | _ => malformed

def colon : Reader Unit := do
  match ← peek with
  | some ':' => skip
  | some _ => malformed
  | none => unfinished

/-- The items up to the closing bracket. -/
def items (size : Nat) (item : Reader Json) : Reader (List Json) :=
  loop (fun acc => do
    if ← hasItem ']' acc.isEmpty then return .inl ((← item) :: acc)
    else
      skip
      return .inr acc.reverse) size []

/-- The fields up to the closing brace. -/
def fields (size : Nat) (strict : Bool) (item : Reader Json) : Reader (List (String × Json)) :=
  loop (fun acc => do
    if ← hasItem '}' acc.isEmpty then
      let name ← fieldName strict
      colon
      return .inl ((name, ← item) :: acc)
    else
      skip
      return .inr acc.reverse) size []

/-- A value that starts with `c`; `list` and `object` read those that hold others. -/
def valueAt (strict : Bool) (list object : Reader Json) (c : Char) : Reader Json := do
  if c == 'n' then word "null".toList; pure .null
  else if c == 't' then word "true".toList; pure (.bool true)
  else if c == 'f' then word "false".toList; pure (.bool false)
  else if c == '-' || isDecimalDigit c then number strict
  else if c == '\x22' then .text <$> string strict
  else if c == '[' then list
  else if c == '{' then object
  else malformed

/-- A value with less than `depth` lists and objects inside each other, in a text of less than `size`
characters. When it is not read strictly only its end matters. -/
def value (size : Nat) (strict : Bool) : Nat → Reader Json
  | 0 => do
    match ← peek with
    | none => unfinished
    | some c => valueAt strict malformed malformed c
  | depth + 1 => do
    match ← peek with
    | none => unfinished
    | some c =>
      valueAt strict (do skip; .array <$> items size (value size strict depth))
        (do skip; ofFields <$> fields size strict (value size strict depth)) c

/-- How deep lists and objects may nest in a value that is read. -/
def depthLimit : Nat := 127

/-- Nothing but white space may follow. -/
def done : Reader Unit := do
  match ← peek with
  | none => pure ()
  | some _ => malformed

end Reader

/-- The value that a whole text stands for. -/
def parse (text : String) : Except JsonFault Json :=
  let cs := text.toList
  let all : Reader Json := do
    let v ← Reader.value (cs.length + 2) true Reader.depthLimit
    Reader.done
    pure v
  (all.run cs).map (·.1)

end LiveNotes.Json
