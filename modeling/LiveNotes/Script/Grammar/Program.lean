import LiveNotes.Script.Grammar.Statement

/-! Whole scripts. The readers of all goals are tied together by a bound on how deep goals nest;
between two nested goals for the same text at most two others stand, so a multiple of the length of
the text is enough. -/

namespace LiveNotes.Script

open Parse

namespace Grammar

/-- The reader of a goal in terms of the readers of the goals inside it. -/
def read (rec : Readers) : Readers
  | .assignment c => assignment rec c
  | .binary c least => binary rec c least
  | .unary c => unary rec c
  | .access c calls => accesses rec c calls
  | .pattern c => pattern rec c
  | .statement c alone => statement rec c alone
  | .type choices => type rec choices
  | .element c => element rec c

/-- The readers of goals that nest less than `n` deep. -/
def readers : Nat → Readers
  | 0, _ => reject
  | n + 1, g => read (readers n) g

end Grammar

/-- Whether a script is read as a module: always, only when it imports or exports something, or
never, as the body of a function. -/
inductive ModuleMode where
  | always | detected | never
  deriving DecidableEq, Repr

/-- The languages of a file. -/
structure SourceKind where
  dialect : Dialect
  mode : ModuleMode
  /-- Whether the file only describes what is found elsewhere. -/
  describes : Bool := false
  deriving DecidableEq, Repr

namespace SourceKind

/-- Modules without types and markup. -/
def plainModule : SourceKind := ⟨⟨false, false⟩, .always, false⟩

/-- What surrounds the whole text; `waits` when it is read as that of a module. -/
def context (kind : SourceKind) (waits : Bool) : Context :=
  { awaits := waits
    undecided := kind.mode == .detected && !waits
    returns := kind.mode == .never
    ambient := kind.describes }

end SourceKind

/-- A program that was read: its tree, the comments before its tokens and the contents of all
comments, in order. -/
structure Program where
  tree : Tree
  comments : List Comment
  remarks : List String
  isModule : Bool
  deriving Repr

/-- Whether a statement makes its script a module. -/
def isModuleItem (t : Tree) : Bool :=
  match t.label with
  | .importDecl .. | .exportDecl | .exportList .. | .exportAll .. | .exportDefault
  | .erased true _ => true
  | _ => false

/-- Whether a script that may be a module is one: it imports or exports something, or asks about
itself as a module. -/
def looksLikeModule (t : Tree) : Bool :=
  t.kids.any isModuleItem || t.anyLabel (· == .importMeta)

/-- The names that an item of a module exports, but for those of `export * from`. -/
def exportedNames (t : Tree) : List String :=
  match t with
  | .node .exportDecl _ [d] => declaredNames d
  | .node .exportDefault _ _ => ["default"]
  | .node (.exportList _ _) _ names => names.filterMap fun n => match n with
    | .node (.exportName _ e _) _ _ => some e.text
    | _ => none
  | .node (.exportAll (some asName) _ _) _ _ => [asName.text]
  | _ => []

namespace Grammar

/-- A first line that names the program to run the script with. -/
def hashbangLine (text : List Char) : Option (Tree × Place) :=
  match text with
  | '#' :: '!' :: _ =>
    let (line, after) := (Place.mk text 0).takeWhile fun c => !isLineEnd c
    some (.node (.hashbang (String.ofList line)) ⟨0, after.pos⟩ [], after)
  | _ => none

/-- Faults that show only in a whole script: a default value outside of a pattern, and names that are
exported twice. -/
def isFaulty (kind : SourceKind) (t : Tree) : Bool :=
  t.anyLabel (· == .coverDefault) ||
    (!kind.dialect.types && hasDuplicates (t.kids.flatMap exportedNames))

/-- Reads a whole text of `size` bytes, whose context is given. -/
def readText (kind : SourceKind) (c : Context) (text : List Char) (size : Nat) :
    Option (Tree × Cursor) :=
  let length := text.length
  let (head, place) := match hashbangLine text with
    | some (t, p) => ([t], p)
    | none => ([], Place.mk text 0)
  let start : Cursor :=
    { start := place, token := ⟨.invalid, ⟨0, 0⟩, false, false, false⟩, after := place, lastStop := 0,
      dialect := kind.dialect, size := length + 1 }
  let all : Parse Tree := do
    readAt { sawNewline := true, newline := true } place
    let items ← bodyStatements (readers (4 * length + 16)) c (· == .finish)
    return .node .program ⟨0, size⟩ (head ++ items)
  all start

/-- The program that was read, unless it has a fault. -/
def checked (kind : SourceKind) (isModule : Bool) (t : Tree) (c : Cursor) : Option Program :=
  if c.flawed || (c.scriptFlawed && !isModule) || isFaulty kind t then none
  else some ⟨t, c.comments.reverse, c.remarks.reverse, isModule⟩

end Grammar

/-- As `parse`, for a text of `size` bytes. -/
def parseText (kind : SourceKind) (text : List Char) (size : Nat) : Option Program :=
  let waits := kind.mode == .always
  match Grammar.readText kind (kind.context waits) text size with
  | none => none
  | some (t, c) =>
    let isModule := waits || (kind.mode == .detected && looksLikeModule t)
    if isModule && c.namesAwait then
      (Grammar.readText kind (kind.context true) text size).bind fun (t, c) =>
        Grammar.checked kind true t c
    else Grammar.checked kind isModule t c

/-- Reads a script; `none` when its text is none of the given kind. A text that may be a module is
read once more as one when it is one and names a variable `await`. -/
def parse (kind : SourceKind) (source : String) : Option Program :=
  parseText kind source.toList source.utf8ByteSize

end LiveNotes.Script
