import LiveNotes.Script.Plain.DisplayName
import LiveNotes.Script.Plain.Element
import LiveNotes.Script.Plain.Types
import LiveNotes.Text.Split

/-! Scripts without types and markup. What the comments of a script say about its markup is heard: words
behind `@jsx` name a function or a library, or say how to find one. -/

namespace LiveNotes.Script

namespace Plain

open Text

inductive Pragma where
  /-- Elements, or groups of elements, are calls of a function of the script's own. -/
  | ownFunction
  /-- How helpers are found: `automatic` from a library, `classic` in the script. -/
  | runtime (way : String)
  /-- The library of the helpers. -/
  | library (source : String)
  deriving DecidableEq, Repr

/-- The pragma for the word right behind `@jsx`. -/
def pragmaOf? (word value : String) : Option Pragma :=
  match word with
  | "" | "Frag" => some .ownFunction
  | "Runtime" => some (.runtime value)
  | "ImportSource" => some (.library value)
  | _ => none

def isSpaceOrTab (c : Char) : Bool := c == ' ' || c == '\t'

/-- The pragmas in the content of a comment, in order. A word without a value ends them. -/
def pragmasIn : Nat → List Char → List Pragma
  | 0, _ => []
  | fuel + 1, content =>
    match splitAtFirst "@jsx".toList content with
    | none => []
    | some (_, behind) =>
      let (word, rest) := behind.span (!isSpaceOrTab ·)
      let (value, after) := (rest.dropWhile isSpaceOrTab).span (!isWhiteSpace ·)
      if (rest.dropWhile isSpaceOrTab).isEmpty then []
      else match pragmaOf? (String.ofList word) (String.ofList value) with
        | some pragma => pragma :: pragmasIn fuel after
        | none => pragmasIn fuel rest

def pragmas (remarks : List String) : List Pragma :=
  remarks.flatMap fun r => pragmasIn (r.length + 1) r.toList

/-- The library that provides the helpers of markup, where `library` is the one to use unless the
comments name another; `none` when they ask for helpers that no library provides. -/
def helperLibrary? (library : String) (remarks : List String) : Option String :=
  let found := pragmas remarks
  let ways := found.filterMap fun p => match p with
    | .runtime "automatic" => some true
    | .runtime "classic" => some false
    | _ => none
  let named := found.filterMap fun p => match p with
    | .library source => some source
    | _ => none
  let source := named.getLast?.getD library
  if found.contains .ownFunction || ways.getLast? == some false || source.isEmpty then none
  else some source

theorem pragmas_append (rs ss : List String) : pragmas (rs ++ ss) = pragmas rs ++ pragmas ss := by
  simp [pragmas]

theorem helperLibrary?_nil {library : String} (h : library.isEmpty = false) :
    helperLibrary? library [] = some library := by
  simp [helperLibrary?, pragmas, h]

end Plain

open Plain

/-- Whether an item of a script stands in front of its statements. -/
def isHead (t : Tree) : Bool :=
  match t.label with
  | .hashbang _ | .directive _ => true
  | _ => false

/-- The items of a script in plain form, whose elements become calls of helpers from `library`. -/
def plainItems (dialect : Dialect) (library : String) (items : List Tree) : Lowering (List Tree) := do
  let untyped ← if dialect.types then eraseProgram items else pure items
  if dialect.markup then lowerItems library untyped else pure untyped

/-- The script of the file with the stem `stem` in plain form, whose elements become calls of helpers
from `library` unless its comments name another; `none` when something in it has no plain form. A
script that only describes what is found elsewhere has nothing but comments. -/
def toPlain? (kind : SourceKind) (stem library : String) (s : Program) : Option Program :=
  let with_ (items : List Tree) : Program := { s with tree := .node .program s.tree.span items }
  let library? := if kind.dialect.markup then helperLibrary? library s.remarks else some library
  match library? with
  | none => none
  | some library =>
    if kind.describes then some (with_ [])
    else
      let head := s.tree.kids.takeWhile isHead
      let items := nameComponentsAll stem none (s.tree.kids.drop head.length)
      let (plain, memory) := (plainItems kind.dialect library items).run
        { used := namesIn s.tree, isModule := s.isModule }
      if memory.failed then none else some (with_ (head ++ plain))

end LiveNotes.Script
