import LiveNotes.Fragment
import LiveNotes.Text.Bytes
import LiveNotes.Text.Split

/-! Finds the fragments of a document by what marks code in its lines: fences around blocks, and runs of
backticks around spans. -/

namespace LiveNotes.Document

open Text

/-! ### Lines -/

/-- A line without its line break; `stop` is the byte behind it. -/
structure Line where
  start : Nat
  text : List Char
  deriving DecidableEq, Repr

def Line.stop (l : Line) : Nat := l.start + byteLength l.text

def backtick : Char := '\x60'

/-- A line without a carriage return at its end. -/
def dropReturn (cs : List Char) : List Char :=
  if cs.getLast? = some '\x0d' then cs.dropLast else cs

/-- Lines that follow each other, the first of which starts at byte `start`. An empty last one is no
line. -/
def placeLines (start : Nat) : List (List Char) → List Line
  | [] => []
  | [piece] => if piece.isEmpty then [] else [⟨start, dropReturn piece⟩]
  | piece :: pieces => ⟨start, dropReturn piece⟩ :: placeLines (start + byteLength piece + 1) pieces

def lines (text : List Char) : List Line := placeLines 0 (splitChar '\n' text)

/-! ### Fences -/

/-- What opens a block: at least three backticks or tildes, and the text behind them. -/
structure Fence where
  mark : Char
  width : Nat
  info : List Char
  deriving DecidableEq, Repr

/-- The fence that a line opens, behind at most three blanks. There is no backtick behind backticks. -/
def fence? (line : List Char) : Option Fence :=
  let rest := line.dropWhile (· == ' ')
  match rest with
  | [] => none
  | mark :: _ =>
    let width := (rest.takeWhile (· == mark)).length
    let info := trimBoth isWhiteSpace (rest.dropWhile (· == mark))
    if line.length - rest.length > 3 || !(mark == backtick || mark == '~') || width < 3 then none
    else if mark == backtick && info.contains backtick then none
    else some ⟨mark, width, info⟩

/-- Whether a line closes the block that a fence opens. -/
def Fence.closedBy (f : Fence) (line : List Char) : Bool :=
  let rest := trimBoth isWhiteSpace line
  f.width ≤ rest.length && rest.all (· == f.mark)

/-! ### Code spans -/

/-- A run of backticks, or text without any. -/
inductive Piece where
  | ticks (width : Nat)
  | plain (text : List Char)
  deriving DecidableEq, Repr

/-- The pieces of a line, each as long as can be. -/
def pieces : List Char → List Piece
  | [] => []
  | c :: cs =>
    if c = backtick then
      match pieces cs with
      | .ticks n :: ps => .ticks (n + 1) :: ps
      | ps => .ticks 1 :: ps
    else
      match pieces cs with
      | .plain t :: ps => .plain (c :: t) :: ps
      | ps => .plain [c] :: ps

def Piece.text : Piece → List Char
  | .ticks n => List.replicate n backtick
  | .plain t => t

/-- The pieces around the first run of just `width` backticks. -/
def splitAtTicks (width : Nat) : List Piece → Option (List Piece × List Piece)
  | [] => none
  | p :: ps =>
    if p = .ticks width then some ([], ps)
    else (splitAtTicks width ps).map fun (inner, rest) => (p :: inner, rest)

theorem length_of_splitAtTicks {width : Nat} {ps inner rest : List Piece}
    (h : splitAtTicks width ps = some (inner, rest)) : rest.length < ps.length := by
  induction ps generalizing inner rest with
  | nil => simp [splitAtTicks] at h
  | cons p ps ih =>
    rw [splitAtTicks] at h
    split at h
    · simp only [Option.some.injEq, Prod.mk.injEq] at h
      simp [← h.2]
    · obtain ⟨⟨i, r⟩, hr, he⟩ := Option.map_eq_some_iff.1 h
      simp only [Prod.mk.injEq] at he
      have := ih hr
      simp only [List.length_cons, ← he.2]
      omega

/-- Code between two runs of backticks of one width. -/
structure CodeSpan where
  start : Nat
  stop : Nat
  inner : List Char
  deriving DecidableEq, Repr

/-- The code spans among pieces that start at byte `at_`. A run that has no partner is text. -/
def codeSpans (at_ : Nat) : List Piece → List CodeSpan
  | [] => []
  | .plain t :: ps => codeSpans (at_ + byteLength t) ps
  | .ticks width :: ps =>
    match h : splitAtTicks width ps with
    | none => codeSpans (at_ + width) ps
    | some (inner, rest) =>
      have := length_of_splitAtTicks h
      let code := inner.flatMap Piece.text
      let stop := at_ + width + byteLength code + width
      ⟨at_, stop, code⟩ :: codeSpans stop rest
termination_by ps => ps.length

/-! ### Fragments -/

/-- The first word of a text. -/
def firstWord (cs : List Char) : List Char :=
  (cs.dropWhile isWhiteSpace).takeWhile fun c => !isWhiteSpace c

/-- The kind of a block and the component it belongs to, by the text behind its fence. -/
def blockKind? (info : List Char) : Option (FragmentKind × Option String) :=
  let word := firstWord info
  if word = "ldjs".toList then some (.blockStatement, none)
  else
    let name := word.takeWhile (· != ':')
    let component := (word.dropWhile (· != ':')).drop 1
    if name = "ldjsx".toList || name = "ldsh".toList then
      some (.blockMarkup, if component.isEmpty then none else some (String.ofList component))
    else none

/-- The kind of a code span and its code. -/
def inlineKind? (inner : List Char) : Option (FragmentKind × List Char) :=
  match afterStart? "ldjs:".toList inner with
  | some code => some (.inlineExpression, code)
  | none => (afterStart? "ldjsx:".toList inner).map fun code => (.inlineMarkup, code)

/-- The fragments among the code spans of a line. -/
def inlineFragments (line : Line) (hasCursor : Bool) : List Fragment :=
  (codeSpans line.start (pieces line.text)).filterMap fun span =>
    (inlineKind? span.inner).map fun (kind, code) =>
      ⟨kind, span.start, span.stop, String.ofList code, none, hasCursor⟩

/-- A block that is open: its fence, where it starts, whether the cursor was in one of its lines so
far, and the lines of its content, last first. -/
structure OpenBlock where
  fence : Fence
  start : Nat
  hasCursor : Bool
  content : List (List Char)
  deriving Repr

/-- The fragment of a block whose last line is `line`. -/
def OpenBlock.close (b : OpenBlock) (line : Line) (hasCursor : Bool) : List Fragment :=
  match blockKind? b.fence.info with
  | some (kind, component) =>
    [⟨kind, b.start, line.stop, String.ofList (joinWith ['\n'] b.content.reverse), component,
      b.hasCursor || hasCursor⟩]
  | none => []

/-- The fragments in lines from number `n` on; a block that is not closed holds no fragment. -/
def scanLines (cursor : Option Nat) : Option OpenBlock → Nat → List Line → List Fragment
  | _, _, [] => []
  | none, n, line :: rest =>
    let hasCursor := cursor == some n
    match fence? line.text with
    | some f => scanLines cursor (some ⟨f, line.start, hasCursor, []⟩) (n + 1) rest
    | none => inlineFragments line hasCursor ++ scanLines cursor none (n + 1) rest
  | some b, n, line :: rest =>
    let hasCursor := cursor == some n
    if b.fence.closedBy line.text then
      b.close line hasCursor ++ scanLines cursor none (n + 1) rest
    else
      scanLines cursor
        (some { b with hasCursor := b.hasCursor || hasCursor, content := line.text :: b.content })
        (n + 1) rest

/-- The number of line feeds before byte `offset`. -/
def lineAt (text : List Char) (offset : Nat) : Nat := (splitAtByte offset text).1.count '\n'

/-- The fragments of a document, in order; `cursor` is a byte of it. -/
def scan (text : String) (cursor : Option Nat) : List Fragment :=
  let cs := text.toList
  scanLines (cursor.map (lineAt cs)) none 0 (lines cs)

end LiveNotes.Document
