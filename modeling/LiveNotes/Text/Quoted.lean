import LiveNotes.Text.HiddenRange
import LiveNotes.Text.Split

/-! Texts in double quotes. With the escapes of JSON, that is a backslash in front of quotes and
backslashes, a letter for five control characters and four hexadecimal digits for the others; and as
they are shown for inspection, where what cannot be seen stands as a number in braces. -/

namespace LiveNotes.Text

/-- The four hexadecimal digits of a number below 2^16. -/
def fourHexDigits (n : Nat) : List Char :=
  [n / 4096 % 16, n / 256 % 16, n / 16 % 16, n % 16].map Nat.digitChar

/-- A character as it stands between quotes. -/
def quoteChar (c : Char) : List Char :=
  if c = '\x22' then ['\x5c', '\x22']
  else if c = '\x5c' then ['\x5c', '\x5c']
  else if c = '\x08' then ['\x5c', 'b']
  else if c = '\x09' then ['\x5c', 't']
  else if c = '\x0a' then ['\x5c', 'n']
  else if c = '\x0c' then ['\x5c', 'f']
  else if c = '\x0d' then ['\x5c', 'r']
  else if c.toNat < 32 then '\x5c' :: 'u' :: fourHexDigits c.toNat
  else [c]

/-- The text between the quotes. -/
def quoteChars (cs : List Char) : List Char := cs.flatMap quoteChar

/-- A text in double quotes. -/
def quoted (s : String) : String := String.ofList ('\x22' :: quoteChars s.toList ++ ['\x22'])

theorem quoteChars_append (cs ds : List Char) :
    quoteChars (cs ++ ds) = quoteChars cs ++ quoteChars ds := List.flatMap_append

/-- Whether a character cannot be seen by itself. -/
def isHidden (c : Char) : Bool :=
  c.toNat < 32 || hiddenRanges.any fun (first, last) => first ≤ c.toNat && c.toNat ≤ last

/-- A character as it is shown between quotes. -/
def shownChar (c : Char) : List Char :=
  if c = '\x22' then ['\x5c', '\x22']
  else if c = '\x5c' then ['\x5c', '\x5c']
  else if c = '\x00' then ['\x5c', '0']
  else if c = '\x09' then ['\x5c', 't']
  else if c = '\x0a' then ['\x5c', 'n']
  else if c = '\x0d' then ['\x5c', 'r']
  else if isHidden c then ['\x5c', 'u', '{'] ++ Nat.toDigits 16 c.toNat ++ ['}']
  else [c]

/-- A text in quotes. -/
def shown (s : String) : String :=
  String.ofList ('\x22' :: s.toList.flatMap shownChar ++ ['\x22'])

/-- A list of texts in quotes. -/
def shownList (ts : List String) : String := "[" ++ ", ".intercalate (ts.map shown) ++ "]"

end LiveNotes.Text
