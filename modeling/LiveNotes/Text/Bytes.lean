/-! The places in a text, counted in bytes of its UTF-8 form, and the texts that bytes stand for. -/

namespace LiveNotes.Text

/-- The number of bytes of a text. -/
def byteLength : List Char → Nat
  | [] => 0
  | c :: cs => c.utf8Size + byteLength cs

/-- The text up to byte `n`, and the rest. A character that starts before `n` is in the first part. -/
def splitAtByte : Nat → List Char → List Char × List Char
  | 0, cs => ([], cs)
  | _, [] => ([], [])
  | n + 1, c :: cs =>
    let (before, rest) := splitAtByte (n + 1 - c.utf8Size) cs
    (c :: before, rest)

/-- The text from byte `start` up to byte `stop`. -/
def byteSlice (start stop : Nat) (cs : List Char) : List Char :=
  (splitAtByte (stop - start) (splitAtByte start cs).2).1

theorem byteLength_append (cs ds : List Char) :
    byteLength (cs ++ ds) = byteLength cs + byteLength ds := by
  induction cs with
  | nil => simp [byteLength]
  | cons c cs ih => simp [byteLength, ih, Nat.add_assoc]

theorem splitAtByte_append (n : Nat) (cs : List Char) :
    (splitAtByte n cs).1 ++ (splitAtByte n cs).2 = cs := by
  induction cs generalizing n with
  | nil => cases n <;> simp [splitAtByte]
  | cons c cs ih => cases n <;> simp [splitAtByte, ih]

theorem splitAtByte_byteLength (cs ds : List Char) :
    splitAtByte (byteLength cs) (cs ++ ds) = (cs, ds) := by
  induction cs with
  | nil => cases ds <;> simp [byteLength, splitAtByte]
  | cons c cs ih =>
    have hc : 0 < c.utf8Size := Char.utf8Size_pos c
    obtain ⟨n, hn⟩ : ∃ n, byteLength (c :: cs) = n + 1 := ⟨c.utf8Size + byteLength cs - 1, by
      simp only [byteLength]; omega⟩
    rw [hn, List.cons_append, splitAtByte]
    have : n + 1 - c.utf8Size = byteLength cs := by
      simp only [byteLength] at hn; omega
    simp [this, ih]

/-! Bytes that are no UTF-8 are read as U+FFFD: one for each longest part that a character could start
with. -/

/-- The bytes of a text. -/
def bytesOf (s : String) : List UInt8 := s.toUTF8.toList

/-- What a character that starts with `b` needs: how many more bytes, and the range of the first. -/
def follow? (b : UInt8) : Option (Nat × UInt8 × UInt8) :=
  if 0xc2 ≤ b && b ≤ 0xdf then some (1, 0x80, 0xbf)
  else if b == 0xe0 then some (2, 0xa0, 0xbf)
  else if b == 0xed then some (2, 0x80, 0x9f)
  else if 0xe1 ≤ b && b ≤ 0xef then some (2, 0x80, 0xbf)
  else if b == 0xf0 then some (3, 0x90, 0xbf)
  else if 0xf1 ≤ b && b ≤ 0xf3 then some (3, 0x80, 0xbf)
  else if b == 0xf4 then some (3, 0x80, 0x8f)
  else none

/-- The bits of the first byte of a character of `n` further bytes. -/
def leadBits (n : Nat) (b : UInt8) : Nat := b.toNat % Nat.pow 2 (6 - n)

/-- A character that has begun: how many bytes it needs, the range of the next one and its bits. -/
structure Begun where
  needed : Nat
  low : UInt8
  high : UInt8
  bits : Nat

def replacement : Char := '\ufffd'

/-- Where a byte leads that starts a character or is none. -/
def beginAt (b : UInt8) : Char ⊕ Begun :=
  if b < 0x80 then .inl (Char.ofNat b.toNat)
  else match follow? b with
    | some (n, low, high) => .inr ⟨n, low, high, leadBits n b⟩
    | none => .inl replacement

/-- Adds the characters of bytes to those before, latest first; the flag is set by a fault. -/
def decodeOnto : Option Begun → List Char → Bool → List UInt8 → List Char × Bool
  | none, acc, bad, [] => (acc, bad)
  | some _, acc, _, [] => (replacement :: acc, true)
  | none, acc, bad, b :: bs =>
    match beginAt b with
    | .inl c => decodeOnto none (c :: acc) (bad || 0x80 ≤ b) bs
    | .inr begun => decodeOnto (some begun) acc bad bs
  | some s, acc, bad, b :: bs =>
    if s.low ≤ b && b ≤ s.high then
      let bits := s.bits * 64 + b.toNat % 64
      if s.needed ≤ 1 then decodeOnto none (Char.ofNat bits :: acc) bad bs
      else decodeOnto (some ⟨s.needed - 1, 0x80, 0xbf, bits⟩) acc bad bs
    else match beginAt b with
      | .inl c => decodeOnto none (c :: replacement :: acc) true bs
      | .inr begun => decodeOnto (some begun) (replacement :: acc) true bs

/-- The text that bytes stand for, with replacements. -/
def decodeLossy (bytes : List UInt8) : String :=
  String.ofList (decodeOnto none [] false bytes).1.reverse

/-- The text that bytes stand for, if they are UTF-8. -/
def decode? (bytes : List UInt8) : Option String :=
  let (acc, bad) := decodeOnto none [] false bytes
  if bad then none else some (String.ofList acc.reverse)

end LiveNotes.Text
