import LiveNotes.Digest.Blake3

/-! Short tokens for lists of byte strings. Each string is hashed behind its length, so that different
lists give different bytes to hash. -/

namespace LiveNotes.Digest

/-- The bytes of a number of 64 bits, the low byte first. -/
def lengthBytes (n : Nat) : List UInt8 :=
  (List.range 8).map fun i => (n / Nat.pow 256 i % 256).toUInt8

/-- Each part behind its length. -/
def framed (parts : List (List UInt8)) : List UInt8 :=
  parts.flatMap fun part => lengthBytes part.length ++ part

/-- The first sixteen digits of the hash of some parts. -/
def shortToken (parts : List (List UInt8)) : String :=
  String.ofList ((contentHash (framed parts)).toList.take 16)

theorem length_lengthBytes (n : Nat) : (lengthBytes n).length = 8 := by simp [lengthBytes]

@[simp] theorem framed_nil : framed [] = [] := rfl

@[simp] theorem framed_cons (part : List UInt8) (parts : List (List UInt8)) :
    framed (part :: parts) = lengthBytes part.length ++ (part ++ framed parts) := by
  simp [framed]

end LiveNotes.Digest
