import LiveNotes.Script.Tree

/-! The tokens of scripts and the comments between them. -/

namespace LiveNotes.Script

inductive Punct where
  | leftBrace | rightBrace | leftParen | rightParen | leftBracket | rightBracket
  | dot | ellipsis | semicolon | comma | colon | question | questionDot | arrow | at | hash | backtick
  | less | lessEqual | greater | equal2 | notEqual2 | equal3 | notEqual3
  | plus | minus | star | slash | percent | star2 | plus2 | minus2 | less2
  | amp | bar | caret | bang | tilde | amp2 | bar2 | question2
  | assign | plusAssign | minusAssign | starAssign | slashAssign | percentAssign | star2Assign
  | less2Assign | ampAssign | barAssign | caretAssign | amp2Assign | bar2Assign | question2Assign
  deriving DecidableEq, Repr

/-- What a token is. A run of `>` is always split into single ones, and a `/` is never taken for the
start of a regular expression: whoever expects the longer token reads on from there. -/
inductive TokenKind where
  /-- An identifier or keyword, with its escapes resolved. -/
  | word (text : String) (escaped : Bool)
  | privateWord (text : String)
  | punct (p : Punct)
  | number (digits : String)
  | bigint (digits : String)
  | string (value : String) (surrogates : Bool)
  /-- The end of the text. -/
  | finish
  /-- Text that no token starts with. -/
  | invalid
  deriving DecidableEq, Repr

/-- Whether a token is a word, be it an identifier or a keyword. -/
def TokenKind.isWord : TokenKind → Bool
  | .word _ _ => true
  | _ => false

/-- The word that a token is when it is written without escapes. -/
def TokenKind.plainWord? : TokenKind → Option String
  | .word w false => some w
  | _ => none

structure Token where
  kind : TokenKind
  span : Span
  /-- Whether a line ends between the token before and this one. -/
  newline : Bool
  /-- Whether a comment before it says that the call that starts here has no effect. -/
  pure : Bool
  /-- Whether a comment before it says so of the calls of the function that starts here. -/
  pureFunction : Bool
  deriving Repr

/-- A comment that stands before the token at `owner`. -/
structure Comment where
  text : String
  isLine : Bool
  /-- Whether a line ends between the token or comment before and this one. -/
  newlineBefore : Bool
  newlineAfter : Bool
  owner : Nat
  deriving DecidableEq, Repr

/-- What a comment says about effects: that a call has none, or that the calls of a function have
none. -/
inductive EffectNote where
  | pureCall | pureFunction
  deriving DecidableEq, Repr

/-- The text between the marks that a comment starts and ends with. -/
def commentContent (isLine : Bool) (text : List Char) : List Char :=
  if isLine then text.drop 2 else (text.drop 2).take (text.length - 4)

/-- The effect note that a comment with the given content is. A block for documentation is none. -/
def effectNote? (isLine : Bool) (content : List Char) : Option EffectNote :=
  if !isLine && content.head? == some '*' then none
  else
    let trimmed := content.dropWhile fun c => c == ' ' || ('\t' ≤ c && c ≤ '\x0d' && c != '\x0b')
    match trimmed with
    | mark :: rest =>
      if mark != '@' && mark != '#' then none
      else if "__PURE__".toList.isPrefixOf rest then some .pureCall
      else if "__NO_SIDE_EFFECTS__".toList.isPrefixOf rest then some .pureFunction
      else none
    | [] => none

/-- Whether `part` stands somewhere in the text. -/
def holdsText (part : List Char) : List Char → Bool
  | [] => part.isEmpty
  | c :: rest => part.isPrefixOf (c :: rest) || holdsText part rest

namespace Comment

def content (c : Comment) : List Char := commentContent c.isLine c.text.toList

def effectNote? (c : Comment) : Option EffectNote := Script.effectNote? c.isLine c.content

/-- A comment that must stay in the output, such as a licence. -/
def isLegal (c : Comment) : Bool :=
  c.content.head? == some '!' || holdsText "@license".toList c.content ||
    holdsText "@preserve".toList c.content

end Comment

example : effectNote? false " @__PURE__ ".toList = some .pureCall := by decide

example : effectNote? false "* @__PURE__ ".toList = none := by decide

end LiveNotes.Script
