import LiveNotes.Script.Token
import LiveNotes.Script.Token.Escape

/-! Reading one token from the front of a text. Each reader takes the place of its first character and
returns what it read with the place that follows; a bound on the number of steps is met by any number
from the length of the text on. -/

namespace LiveNotes.Script

/-! ### Words and numbers -/

/-- The rest of an identifier, and whether it holds an escape. -/
def readWordRest : Nat → List Char → Bool → Place → Option (List Char × Bool × Place)
  | 0, _, _, _ => none
  | fuel + 1, acc, escaped, p =>
    match p.rest with
    | '\x5c' :: 'u' :: rest =>
      match readUnicodeEscape fuel ⟨rest, p.pos + 2⟩ with
      | none => none
      | some (n, place) =>
        let c := Char.ofNat n
        if (if acc.isEmpty then isIdentifierStart c else isIdentifierPart c) then
          readWordRest fuel (c :: acc) true place
        else none
    | '\x5c' :: _ => none
    | c :: rest =>
      if (if acc.isEmpty then isIdentifierStart c else isIdentifierPart c) then
        readWordRest fuel (c :: acc) escaped (p.step c rest)
      else some (acc.reverse, escaped, p)
    | [] => some (acc.reverse, escaped, p)

/-- Digits that satisfy `f`, between which single underscores may stand. -/
def readDigits (f : Char → Bool) (p : Place) : Option (List Char × Place) :=
  let (taken, after) := p.takeWhile fun c => f c || c == '_'
  if separated taken then some (taken, after) else none
where
  /-- Every underscore stands between two digits. -/
  separated : List Char → Bool
    | [] => true
    | '_' :: _ => false
    | _ :: '_' :: '_' :: _ => false
    | _ :: '_' :: rest => !rest.isEmpty && separated rest
    | _ :: rest => separated rest

/-- A number must not run into a word. -/
def endNumber (kind : TokenKind) (p : Place) : TokenKind × Place :=
  match p.rest with
  | c :: _ => if isIdentifierStart c || isDecimalDigit c || c == '\x5c' then (.invalid, p) else (kind, p)
  | [] => (kind, p)

/-- An exponent part, if one is in front; `none` when its digits are missing. -/
def readExponent (p : Place) : Option (List Char × Place) :=
  match p.rest with
  | e :: rest =>
    if e == 'e' || e == 'E' then
      let afterE := p.step e rest
      let (sign, place) := match rest with
        | '+' :: rest' => (['+'], afterE.step '+' rest')
        | '-' :: rest' => (['-'], afterE.step '-' rest')
        | _ => ([], afterE)
      match readDigits isDecimalDigit place with
      | some ([], _) | none => none
      | some (digits, after) => some ('e' :: sign ++ digits, after)
    else some ([], p)
  | [] => some ([], p)

def invalidAt (p : Place) : TokenKind × Place := (.invalid, p)

/-- A big integer, whose value is kept as decimal digits. -/
def bigintOf (base : Nat) (digits : List Char) : TokenKind :=
  .bigint (String.ofList (Nat.toDigits 10 (digitsValue base digits)))

/-- A number in the given base other than ten: its mark, then digits, then perhaps `n`. -/
def readRadix (mark : List Char) (base : Nat) (p : Place) : TokenKind × Place :=
  match readDigits (fun c => (hexDigit? c).any (· < base)) p with
  | some ([], _) | none => invalidAt p
  | some (digits, after) =>
    match after.rest with
    | 'n' :: rest => endNumber (bigintOf base digits) (after.step 'n' rest)
    | _ => endNumber (.number (String.ofList (mark ++ digits))) after

/-- The fraction and exponent behind the integer part `whole`. -/
def readFraction (whole : List Char) (p : Place) : TokenKind × Place :=
  let fraction : Option (List Char × Place) := match p.rest with
    | '.' :: rest =>
      (readDigits isDecimalDigit (p.step '.' rest)).map fun (digits, after) => ('.' :: digits, after)
    | _ => some ([], p)
  match fraction with
  | none => invalidAt p
  | some (digits, after) =>
    match readExponent after with
    | none => invalidAt p
    | some (exponent, last) => endNumber (.number (String.ofList (whole ++ digits ++ exponent))) last

/-- A number whose first character is a digit or a dot that a digit follows. -/
def readNumber (p : Place) : TokenKind × Place :=
  match p.rest with
  | '0' :: x :: rest =>
    let afterMark : Place := ⟨rest, p.pos + 1 + x.utf8Size⟩
    if x == 'x' || x == 'X' then readRadix ['0', 'x'] 16 afterMark
    else if x == 'b' || x == 'B' then readRadix ['0', 'b'] 2 afterMark
    else if x == 'o' || x == 'O' then readRadix ['0', 'o'] 8 afterMark
    else if isDecimalDigit x then
      let (digits, after) := p.takeWhile isDecimalDigit
      if digits.all fun c => (octalDigit? c).isSome then
        endNumber (.number (String.ofList ('0' :: 'o' :: digits.drop 1))) after
      else readFraction (digits.dropWhile (· == '0')) after
    else if x == '_' then invalidAt p
    else readDecimal p
  | _ => readDecimal p
where
  readDecimal (p : Place) : TokenKind × Place :=
    match readDigits isDecimalDigit p with
    | none => invalidAt p
    | some (digits, after) =>
      match digits, after.rest with
      | _ :: _, 'n' :: rest => endNumber (bigintOf 10 digits) (after.step 'n' rest)
      | _, _ => readFraction digits after

/-! ### Punctuation -/

/-- The longest punctuator in front, but for runs that start with `>`. -/
def punct? : List Char → Option (Punct × Nat)
  | '{' :: _ => some (.leftBrace, 1)
  | '}' :: _ => some (.rightBrace, 1)
  | '(' :: _ => some (.leftParen, 1)
  | ')' :: _ => some (.rightParen, 1)
  | '[' :: _ => some (.leftBracket, 1)
  | ']' :: _ => some (.rightBracket, 1)
  | '.' :: '.' :: '.' :: _ => some (.ellipsis, 3)
  | '.' :: _ => some (.dot, 1)
  | ';' :: _ => some (.semicolon, 1)
  | ',' :: _ => some (.comma, 1)
  | ':' :: _ => some (.colon, 1)
  | '?' :: '?' :: '=' :: _ => some (.question2Assign, 3)
  | '?' :: '?' :: _ => some (.question2, 2)
  | '?' :: '.' :: c :: _ => if isDecimalDigit c then some (.question, 1) else some (.questionDot, 2)
  | '?' :: '.' :: _ => some (.questionDot, 2)
  | '?' :: _ => some (.question, 1)
  | '@' :: _ => some (.at, 1)
  | '#' :: _ => some (.hash, 1)
  | '\x60' :: _ => some (.backtick, 1)
  | '<' :: '<' :: '=' :: _ => some (.less2Assign, 3)
  | '<' :: '<' :: _ => some (.less2, 2)
  | '<' :: '=' :: _ => some (.lessEqual, 2)
  | '<' :: _ => some (.less, 1)
  | '>' :: _ => some (.greater, 1)
  | '=' :: '=' :: '=' :: _ => some (.equal3, 3)
  | '=' :: '=' :: _ => some (.equal2, 2)
  | '=' :: '>' :: _ => some (.arrow, 2)
  | '=' :: _ => some (.assign, 1)
  | '!' :: '=' :: '=' :: _ => some (.notEqual3, 3)
  | '!' :: '=' :: _ => some (.notEqual2, 2)
  | '!' :: _ => some (.bang, 1)
  | '~' :: _ => some (.tilde, 1)
  | '+' :: '+' :: _ => some (.plus2, 2)
  | '+' :: '=' :: _ => some (.plusAssign, 2)
  | '+' :: _ => some (.plus, 1)
  | '-' :: '-' :: _ => some (.minus2, 2)
  | '-' :: '=' :: _ => some (.minusAssign, 2)
  | '-' :: _ => some (.minus, 1)
  | '*' :: '*' :: '=' :: _ => some (.star2Assign, 3)
  | '*' :: '*' :: _ => some (.star2, 2)
  | '*' :: '=' :: _ => some (.starAssign, 2)
  | '*' :: _ => some (.star, 1)
  | '/' :: '=' :: _ => some (.slashAssign, 2)
  | '/' :: _ => some (.slash, 1)
  | '%' :: '=' :: _ => some (.percentAssign, 2)
  | '%' :: _ => some (.percent, 1)
  | '&' :: '&' :: '=' :: _ => some (.amp2Assign, 3)
  | '&' :: '&' :: _ => some (.amp2, 2)
  | '&' :: '=' :: _ => some (.ampAssign, 2)
  | '&' :: _ => some (.amp, 1)
  | '|' :: '|' :: '=' :: _ => some (.bar2Assign, 3)
  | '|' :: '|' :: _ => some (.bar2, 2)
  | '|' :: '=' :: _ => some (.barAssign, 2)
  | '|' :: _ => some (.bar, 1)
  | '^' :: '=' :: _ => some (.caretAssign, 2)
  | '^' :: _ => some (.caret, 1)
  | _ => none

/-! ### White space and comments -/

/-- What was passed over in front of a token. -/
structure Trivia where
  /-- The last comments so far that may belong to the next token, latest first. -/
  pending : List Comment := []
  /-- The contents of all comments, latest first. -/
  remarks : List String := []
  /-- Whether a line has ended since the token before. -/
  sawNewline : Bool := false
  /-- As `sawNewline`, counting line ends inside comments. -/
  newline : Bool := false
  pure : Bool := false
  pureFunction : Bool := false
  /-- Whether comments that end the line of the token before belong to the next one all the same. -/
  keeps : Bool := false
  deriving Repr

namespace Trivia

def endLine (t : Trivia) : Trivia :=
  let pending := match t.pending with
    | c :: rest =>
      if t.sawNewline || t.keeps then { c with newlineAfter := true } :: rest else []
    | [] => []
  { t with pending, sawNewline := true, newline := true }

/-- Takes note of what a comment says, wherever it stands. -/
def addRemark (c : Comment) (t : Trivia) : Trivia :=
  { t with
    remarks := String.ofList c.content :: t.remarks
    pure := t.pure || c.effectNote? == some .pureCall
    pureFunction := t.pureFunction || c.effectNote? == some .pureFunction }

def addLine (text : List Char) (t : Trivia) : Trivia :=
  let c : Comment := ⟨String.ofList text, true, t.sawNewline, true, 0⟩
  let pending := if t.sawNewline || t.keeps then c :: t.pending else []
  { t.addRemark c with pending, sawNewline := true, newline := true }

def addBlock (text : List Char) (t : Trivia) : Trivia :=
  let c : Comment := ⟨String.ofList text, false, t.sawNewline, false, 0⟩
  { t.addRemark c with
    pending := c :: t.pending
    newline := t.newline || text.any isLineEnd }

/-- The comments that belong to the token at `owner`; effect notes show elsewhere. -/
def commentsFor (owner : Nat) (t : Trivia) : List Comment :=
  (t.pending.filter (·.effectNote?.isNone)).map ({ · with owner })

end Trivia

/-- A block comment up to and including its closing mark. -/
def readBlockComment : List Char → Place → Option (List Char × Place)
  | acc, ⟨rest, pos⟩ => go acc rest pos
where
  go : List Char → List Char → Nat → Option (List Char × Place)
    | _, [], _ => none
    | acc, '*' :: '/' :: rest, pos => some (('/' :: '*' :: acc).reverse, ⟨rest, pos + 2⟩)
    | acc, c :: rest, pos => go (c :: acc) rest (pos + c.utf8Size)

/-- Passes over white space and comments; `none` when a comment does not end. -/
def skipTrivia : Nat → Trivia → Place → Option (Trivia × Place)
  | 0, t, p => some (t, p)
  | fuel + 1, t, p =>
    match p.rest with
    | '/' :: '/' :: _ =>
      let (text, after) := p.takeWhile fun c => !isLineEnd c
      skipTrivia fuel (t.addLine text) after
    | '/' :: '*' :: rest =>
      match readBlockComment ['*', '/'] ⟨rest, p.pos + 2⟩ with
      | none => none
      | some (text, after) => skipTrivia fuel (t.addBlock text) after
    | c :: rest =>
      if isLineEnd c then skipTrivia fuel t.endLine (p.step c rest)
      else if isBlank c then skipTrivia fuel t (p.step c rest)
      else some (t, p)
    | [] => some (t, p)

/-! ### Tokens -/

/-- The token in front of a text that starts with neither white space nor a comment. -/
def readKind (fuel : Nat) (p : Place) : TokenKind × Place :=
  match p.rest with
  | [] => (.finish, p)
  | c :: rest =>
    if isDecimalDigit c then readNumber p
    else if c == '\x22' || c == '\x27' then
      match readStringBody c fuel [] (p.step c rest) with
      | none => invalidAt p
      | some (points, after) =>
        let (text, surrogates) := textOfCodePoints points
        (.string text surrogates, after)
    else if isIdentifierStart c || c == '\x5c' then
      match readWordRest fuel [] false p with
      | none => invalidAt p
      | some (text, escaped, after) => (.word (String.ofList text) escaped, after)
    else if c == '.' && (rest.head?.map isDecimalDigit).getD false then readNumber p
    else if c == '#' then
      match readWordRest fuel [] false (p.step c rest) with
      | some (d :: text, _, after) => (.privateWord (String.ofList (d :: text)), after)
      | _ => invalidAt p
    else match punct? p.rest with
      | some (q, n) => (.punct q, ⟨p.rest.drop n, p.pos + n⟩)
      | none => invalidAt p

/-- A token, what stands in front of it, and the places where it starts and ends. -/
structure Reading where
  token : Token
  comments : List Comment := []
  remarks : List String := []
  start : Place
  after : Place

/-- The next token from `p` on. A comment that does not end makes an invalid token. -/
def readToken (fuel : Nat) (t : Trivia) (p : Place) : Reading :=
  match skipTrivia fuel t p with
  | none => { token := ⟨.invalid, ⟨p.pos, p.pos⟩, false, false, false⟩, start := p, after := p }
  | some (t, start) =>
    let (kind, after) := readKind fuel start
    { token := ⟨kind, ⟨start.pos, after.pos⟩, t.newline, t.pure, t.pureFunction⟩
      comments := t.commentsFor start.pos
      remarks := t.remarks, start, after }

end LiveNotes.Script
