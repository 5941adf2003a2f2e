/-! Texts cut into pieces at a character, at their ends, at the first place of a given part and behind a
number of characters, and without the white space around them. -/

namespace LiveNotes.Text

/-- The pieces between the places of `sep`, always at least one. -/
def splitChar (sep : Char) : List Char → List (List Char)
  | [] => [[]]
  | c :: cs =>
    if c = sep then [] :: splitChar sep cs
    else match splitChar sep cs with
      | piece :: pieces => (c :: piece) :: pieces
      | [] => [[c]]

/-- Pieces with `sep` between them. -/
def joinWith (sep : List Char) : List (List Char) → List Char
  | [] => []
  | [piece] => piece
  | piece :: pieces => piece ++ sep ++ joinWith sep pieces

/-- The pieces of a text between the places of `sep`. -/
def split (sep : Char) (s : String) : List String :=
  (splitChar sep s.toList).map String.ofList

/-- What follows `start` in a text that starts so. -/
def afterStart? : List Char → List Char → Option (List Char)
  | [], cs => some cs
  | _ :: _, [] => none
  | s :: start, c :: cs => if s = c then afterStart? start cs else none

/-- What follows `start`, when the text starts so. -/
def dropPrefix? (start s : String) : Option String :=
  (afterStart? start.toList s.toList).map String.ofList

def hasPrefix (start s : String) : Bool := start.toList.isPrefixOf s.toList

def hasSuffix (stop s : String) : Bool := stop.toList.isSuffixOf s.toList

/-- The text around the first place of `part`, if it has one. -/
def splitAtFirst (part : List Char) : List Char → Option (List Char × List Char)
  | [] => if part.isEmpty then some ([], []) else none
  | c :: cs =>
    match afterStart? part (c :: cs) with
    | some rest => some ([], rest)
    | none => (splitAtFirst part cs).map fun (before, rest) => (c :: before, rest)

/-- Whether `part` stands somewhere in the text. -/
def hasPart (part s : String) : Bool := (splitAtFirst part.toList s.toList).isSome

/-- Drops characters with property `p` at the end. -/
def dropEnd (p : Char → Bool) (cs : List Char) : List Char := (cs.reverse.dropWhile p).reverse

/-- Drops characters with property `p` at both ends. -/
def trimBoth (p : Char → Bool) (cs : List Char) : List Char := dropEnd p (cs.dropWhile p)

theorem afterStart?_eq_some_iff {start cs rest : List Char} :
    afterStart? start cs = some rest ↔ cs = start ++ rest := by
  induction start generalizing cs with
  | nil => simp [afterStart?]
  | cons s start ih =>
    cases cs with
    | nil => simp [afterStart?]
    | cons c cs => by_cases h : s = c <;> simp [afterStart?, h, ih]; exact fun h' => absurd h'.symm h

theorem splitChar_ne_nil (sep : Char) (cs : List Char) : splitChar sep cs ≠ [] := by
  cases cs with
  | nil => simp [splitChar]
  | cons c cs => grind [splitChar]

theorem joinWith_splitChar (sep : Char) (cs : List Char) :
    joinWith [sep] (splitChar sep cs) = cs := by
  induction cs with
  | nil => rfl
  | cons c cs ih =>
    have hne := splitChar_ne_nil sep cs
    rw [splitChar]
    split
    · next h =>
      cases hs : splitChar sep cs with
      | nil => exact absurd hs hne
      | cons piece pieces => rw [hs] at ih; simp [joinWith, ih, h]
    · cases hs : splitChar sep cs with
      | nil => exact absurd hs hne
      | cons piece pieces =>
        rw [hs] at ih
        cases pieces with
        | nil => simpa [joinWith] using ih
        | cons p ps => simpa [joinWith] using ih

/-- The first `max` characters, and behind them what `note` says of the number of others. -/
def cut (max : Nat) (note : Nat → String) (s : String) : String :=
  let cs := s.toList
  if cs.length ≤ max then s else String.ofList (cs.take max) ++ note (cs.length - max)

/-- A text of at most `max` characters and a note. -/
def truncate (s : String) (max : Nat) : String :=
  cut max (fun n => "\u2026 [truncated " ++ toString n ++ " chars]") s

theorem cut_eq_self {max : Nat} {note : Nat → String} {s : String} (h : s.toList.length ≤ max) :
    cut max note s = s := if_pos h

/-! ### White space: the characters with that property in Unicode -/

def isWhiteSpace (c : Char) : Bool :=
  let n := c.toNat
  (9 ≤ n && n ≤ 13) || n == 0x20 || n == 0x85 || n == 0xa0 || n == 0x1680 ||
    (0x2000 ≤ n && n ≤ 0x200a) || n == 0x2028 || n == 0x2029 || n == 0x202f || n == 0x205f ||
    n == 0x3000

/-- A text without the white space at its ends. -/
def trim (s : String) : String := String.ofList (trimBoth isWhiteSpace s.toList)

theorem isWhiteSpace_of_isWhitespace {c : Char} (h : c.isWhitespace = true) :
    isWhiteSpace c = true := by
  unfold Char.isWhitespace at h
  unfold isWhiteSpace
  simp only [Bool.or_eq_true, decide_eq_true_eq] at h
  rcases h with ((h | h) | h) | h <;> subst h <;> decide

theorem isWhiteSpace_of_isDigit {c : Char} (h : c.isDigit = true) : isWhiteSpace c = false := by
  unfold isWhiteSpace
  unfold Char.isDigit at h
  simp only [Bool.and_eq_true, decide_eq_true_eq] at h
  have hlow : 48 ≤ c.toNat := h.1
  have hhigh : c.toNat ≤ 57 := h.2
  simp only [Bool.or_eq_false_iff, Bool.and_eq_false_iff, decide_eq_false_iff_not, beq_eq_false_iff_ne]
  omega

end LiveNotes.Text
