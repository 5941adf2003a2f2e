import LiveNotes.Script.NumberText
import LiveNotes.Script.Token
import LiveNotes.Text.Split

/-! The text that a script is printed to, with what later parts must know of earlier ones. -/

namespace LiveNotes.Script.Printer

structure Output where
  /-- The characters so far, latest first. -/
  reversed : List Char := []
  length : Nat := 0
  indent : Nat := 0
  /-- Whether the next statement goes on in the line, behind a space. -/
  inLine : Bool := false
  /-- Where the current statement, exported default and concise function body start: text there must
  not look like the start of a block or declaration. -/
  statementStart : Nat := 0
  defaultStart : Nat := 0
  bodyStart : Nat := 0
  /-- Where a whole number ends, to which a dot would be added. -/
  numberStop : Nat := 0
  /-- The sign of the operator in front, and where it ends. -/
  sign : Option Char := none
  signStop : Nat := 0
  /-- The comments that are still to be printed. -/
  comments : List Comment := []

/-- A part of the text, as what it adds to an output. -/
abbrev Emit := Output → Output

namespace Emit

def nothing : Emit := id

def char (c : Char) : Emit := fun o =>
  { o with reversed := c :: o.reversed, length := o.length + 1 }

def chars (cs : List Char) : Emit := fun o => cs.foldl (fun o c => char c o) o

def text (s : String) : Emit := chars s.toList

/-- Parts one after another. -/
def all (parts : List Emit) : Emit := fun o => parts.foldl (fun o part => part o) o

def when (b : Bool) (part : Emit) : Emit := if b then part else nothing

def newline : Emit := char '\n'

def indented (part : Emit) : Emit := fun o =>
  let o' := part { o with indent := o.indent + 1 }
  { o' with indent := o.indent }

/-- The space in front of a statement. -/
def margin : Emit := fun o =>
  if o.inLine then char ' ' { o with inLine := false }
  else chars (List.replicate o.indent '\t') o

/-- The end of a statement. -/
def semicolon : Emit := text ";\n"

def parens (b : Bool) (part : Emit) : Emit :=
  if b then all [char '(', part, char ')'] else part

end Emit

/-- The characters that must not be joined with a word behind them. -/
def Output.endsInWord (isPart : Char → Bool) (o : Output) : Bool :=
  match o.reversed with
  | c :: _ => isPart c
  | [] => false

/-! ### Words and literals, so that they cannot be taken for a part of what stands in front of them, nor
for the end of a script element -/

open Emit

/-- A word, apart from one in front. -/
def word (s : String) : Emit := fun o =>
  if o.endsInWord isIdentifierPart then all [char ' ', text s] o else text s o

/-- The digits of a big integer with their mark. -/
def bigint (digits : String) : Emit := word (digits ++ "n")

/-- A sign in front of its operand, apart from an equal sign in front. -/
def sign (s : String) : Emit := fun o =>
  let c := s.toList.headD ' '
  let o := if o.sign == some c && o.signStop == o.length then char ' ' o else o
  let o := text s o
  { o with sign := some c, signStop := o.length }

/-- The escape of a control or separating character that must not stand in quotes. -/
def escapeChar (next : Option Char) (c : Char) : List Char :=
  match c with
  | '\x00' => if (next.map isDecimalDigit).getD false then "\\x00".toList else "\\0".toList
  | '\x07' => "\\x07".toList
  | '\x08' => "\\b".toList
  | '\n' => "\\n".toList
  | '\x0b' => "\\v".toList
  | '\x0c' => "\\f".toList
  | '\x0d' => "\\r".toList
  | '\x1b' => "\\x1B".toList
  | '\x5c' => "\\\\".toList
  | '\x22' => "\\\"".toList
  | _ =>
    if c.toNat == 0x2028 then "\\u2028".toList
    else if c.toNat == 0x2029 then "\\u2029".toList
    else if c.toNat == 0xa0 then "\\xA0".toList
    else [c]

/-- Whether a text starts with the end of a script element, in any case. -/
def startsScriptEnd (text : List Char) : Bool :=
  "</script".toList == (text.take 8).map Char.toLower

/-- The inside of a quoted string, without its first `skipped` characters; U+FFFD stands for the
escape behind it when `surrogates` is set. -/
def escapeText (surrogates : Bool) : Nat → List Char → List Char
  | _, [] => []
  | skipped + 1, _ :: rest => escapeText surrogates skipped rest
  | 0, c :: rest =>
    if surrogates && c.toNat == 0xfffd then
      if "fffd".toList.isPrefixOf rest then c :: escapeText surrogates 4 rest
      else '\x5c' :: 'u' :: escapeText surrogates 0 rest
    else if c == '<' && startsScriptEnd (c :: rest) then
      '<' :: '\x5c' :: escapeText surrogates 0 rest
    else escapeChar rest.head? c ++ escapeText surrogates 0 rest

def quoted (value : String) (surrogates : Bool) : Emit :=
  all [char '\x22', chars (escapeText surrogates 0 value.toList), char '\x22']

/-- Raw text, in which the end of a script element gets a backslash. -/
def rawText : List Char → List Char
  | [] => []
  | c :: rest =>
    if c == '<' && startsScriptEnd (c :: rest) then '<' :: '\x5c' :: rawText rest
    else c :: rawText rest

def number (digits : String) : Emit := fun o =>
  let value := numberValue digits
  let t := numberText value
  let o := if o.endsInWord isIdentifierPart then char ' ' o else o
  let o := chars t o
  if t.all isDecimalDigit then { o with numberStop := o.length } else o

def regex (pattern flags : String) : Emit := fun o =>
  let apart := match o.reversed with
    | '/' :: _ => true
    | '<' :: _ => "script".toList == (pattern.toList.take 6).map Char.toLower
    | _ => false
  all [when apart (char ' '), char '/', chars (rawText pattern.toList), char '/', text flags] o

/-- The quotes of a directive are such that its text needs no escape. -/
def directiveQuote : List Char → Char
  | [] => '\x22'
  | '\x5c' :: _ :: rest => directiveQuote rest
  | '\x22' :: _ => '\x27'
  | '\x27' :: _ => '\x22'
  | _ :: rest => directiveQuote rest

/-! ### Comments

The comments of a script as text. They wait in the output until the part that they stand in front of is
printed; those of other parts are left out. -/

/-- The comments of the token at `owner`, and the output without them. -/
def Output.takeComments (owner : Nat) (o : Output) : List Comment × Output :=
  match o.comments with
  | [] => ([], o)
  | cs => (cs.filter (·.owner == owner), { o with comments := cs.filter (·.owner != owner) })

/-- Whether comments of the token at `owner` are still to be printed. -/
def Output.hasComments (owner : Nat) (o : Output) : Bool := o.comments.any (·.owner == owner)

/-- A text in which no line ends in two characters. -/
def unifyLineEnds : List Char → List Char
  | [] => []
  | '\x0d' :: '\n' :: rest => '\n' :: unifyLineEnds rest
  | c :: rest => c :: unifyLineEnds rest

/-- A line of a block; it starts where the statement does, unless it starts the block. -/
def commentLine (line : List Char) : Emit :=
  all [when (!"/*".toList.isPrefixOf line) margin, chars (rawText (line.dropWhile Text.isWhiteSpace)),
    when (!"*/".toList.isSuffixOf line) newline]

def comment (c : Comment) : Emit :=
  match linesOf (unifyLineEnds c.text.toList) with
  | [line] => chars (rawText line)
  | lines => all (lines.map commentLine)

/-- What stands between the text so far and a comment that starts a line of its own. -/
def openLine : Emit := fun o =>
  match o.reversed with
  | '\n' :: _ => margin o
  | '\t' :: _ | [] => o
  | _ => all [newline, margin] o

/-- A comment behind another one. -/
def nextComment (c : Comment) : Emit :=
  all [if c.newlineBefore then all [newline, margin] else when c.isLegal newline, comment c]

/-- Comments in front of a statement. -/
def leadingComments (cs : List Comment) : Emit :=
  match cs with
  | [] => nothing
  | first :: others =>
    let last := others.getLastD first
    all ((if first.newlineBefore then openLine else margin) :: comment first ::
      others.map nextComment ++
      [if last.isLine || last.newlineAfter then newline else fun o => { o with inLine := true }])

def commentsAt (owner : Nat) : Emit := fun o =>
  let (cs, o) := o.takeComments owner
  leadingComments cs o

/-- Comments in front of a name in a list. -/
def nameComments (owner : Nat) : Emit := fun o =>
  match o.takeComments owner with
  | ([], o) => o
  | (cs, o) => all [leadingComments cs, fun o => { o with inLine := false }, char ' '] o

/-- Comments in front of an argument, each on a line of its own; a line must follow in any case. -/
def argumentComments (owner : Nat) : Emit := fun o =>
  let (cs, o) := o.takeComments owner
  all (cs.map (fun c => all [newline, margin, comment c]) ++ [newline]) o

end LiveNotes.Script.Printer
