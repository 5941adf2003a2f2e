import Mathlib.Algebra.Group.Nat.Defs
import Mathlib.Data.List.Basic
import LiveNotes.Digest.Token

/-! Lists of parts are read back from the bytes that are hashed for them: what stands in front of a
part says how many bytes it has, whatever the bytes of the parts are. Two lists with one token are
therefore the same list, or two streams of bytes whose hashes begin with the same eight bytes. -/

namespace LiveNotes.Digest

/-- The number that some bytes write, the low byte first. -/
def numberOf : List UInt8 → Nat
  | [] => 0
  | b :: bytes => b.toNat + 256 * numberOf bytes

theorem numberOf_lengthBytes {n : Nat} (h : n < 2 ^ 64) : numberOf (lengthBytes n) = n := by
  have hbyte (m : Nat) : (m % 256).toUInt8.toNat = m % 256 := by simp
  simp only [lengthBytes, List.range, List.range.loop, List.map_cons, List.map_nil, numberOf, hbyte,
    Nat.pow_eq, Nat.reducePow]
  omega

/-- Lengths below 2^64 are told apart by their bytes. -/
theorem lengthBytes_inj {m n : Nat} (hm : m < 2 ^ 64) (hn : n < 2 ^ 64) :
    lengthBytes m = lengthBytes n ↔ m = n :=
  ⟨fun h => by rw [← numberOf_lengthBytes hm, h, numberOf_lengthBytes hn], fun h => h ▸ rfl⟩

/-- Parts whose lengths can be written in eight bytes. -/
def Framable (parts : List (List UInt8)) : Prop := ∀ part ∈ parts, part.length < 2 ^ 64

/-- A stream of bytes is that of at most one list: its first eight bytes give the end of the first
part, and so on. -/
theorem Framable.framed_inj {ps qs : List (List UInt8)} (hp : Framable ps) (hq : Framable qs) :
    framed ps = framed qs ↔ ps = qs := by
  refine ⟨fun h => ?_, fun h => h ▸ rfl⟩
  induction ps generalizing qs with
  | nil =>
    cases qs with
    | nil => rfl
    | cons q qs =>
      have := congrArg List.length h
      simp [length_lengthBytes] at this
      omega
  | cons p ps ih =>
    cases qs with
    | nil =>
      have := congrArg List.length h
      simp [length_lengthBytes] at this
    | cons q qs =>
      rw [Framable, List.forall_mem_cons] at hp hq
      rw [framed_cons, framed_cons] at h
      obtain ⟨hlength, hrest⟩ :=
        List.append_inj h (by rw [length_lengthBytes, length_lengthBytes])
      obtain ⟨rfl, hparts⟩ := List.append_inj hrest ((lengthBytes_inj hp.1 hq.1).1 hlength)
      rw [ih hp.2 hq.2 hparts]

theorem digitChar_inj {m n : Nat} (hm : m < 16) (hn : n < 16)
    (h : Nat.digitChar m = Nat.digitChar n) : m = n := by
  have key : ∀ a b : Fin 16, Nat.digitChar a = Nat.digitChar b → a = b := by decide
  exact congrArg Fin.val (key ⟨m, hm⟩ ⟨n, hn⟩ h)

@[simp] theorem length_hexDigits (b : UInt8) : (hexDigits b).length = 2 := rfl

theorem hexDigits_inj {a b : UInt8} (h : hexDigits a = hexDigits b) : a = b := by
  have ha := a.toNat_lt
  have hb := b.toNat_lt
  rw [hexDigits, hexDigits, List.cons.injEq, List.cons.injEq] at h
  have hhigh := digitChar_inj (by omega) (by omega) h.1
  have hlow := digitChar_inj (by omega) (by omega) h.2.1
  exact UInt8.toNat_inj.1 (by omega)

theorem flatMap_hexDigits_inj {as bs : List UInt8} :
    as.flatMap hexDigits = bs.flatMap hexDigits ↔ as = bs := by
  refine ⟨fun h => ?_, fun h => h ▸ rfl⟩
  induction as generalizing bs with
  | nil => cases bs <;> simp_all [hexDigits]
  | cons a as ih =>
    cases bs with
    | nil => simp [hexDigits] at h
    | cons b bs =>
      rw [List.flatMap_cons, List.flatMap_cons] at h
      obtain ⟨hbyte, hbytes⟩ := List.append_inj h (by simp)
      rw [hexDigits_inj hbyte, ih hbytes]

/-- Two digits for each byte, so that an even number of digits is the text of half as many bytes. -/
theorem take_flatMap_hexDigits (n : Nat) (bytes : List UInt8) :
    (bytes.flatMap hexDigits).take (2 * n) = (bytes.take n).flatMap hexDigits := by
  induction bytes generalizing n with
  | nil => simp
  | cons b bytes ih =>
    cases n with
    | zero => simp
    | succ n =>
      rw [List.flatMap_cons, List.take_append, length_hexDigits,
        List.take_of_length_le (by rw [length_hexDigits]; omega), Nat.mul_succ,
        Nat.add_sub_cancel, ih, List.take_succ_cons, List.flatMap_cons]

/-- A token shows the first eight bytes of the hash and nothing else. -/
theorem shortToken_inj {ps qs : List (List UInt8)} :
    shortToken ps = shortToken qs ↔
      (blake3 (framed ps)).take 8 = (blake3 (framed qs)).take 8 := by
  rw [shortToken, shortToken, String.ofList_inj, contentHash, contentHash, hexText, hexText,
    String.toList_ofList, String.toList_ofList, take_flatMap_hexDigits 8,
    take_flatMap_hexDigits 8, flatMap_hexDigits_inj]

/-- For parts shorter than 2^64 bytes, the bytes that are hashed are the same only for the same
parts. So the tokens of two lists agree when the lists do, and beyond that only where the hashes of
two different streams of bytes begin with the same eight bytes. -/
theorem token_eq_iff {ps qs : List (List UInt8)} (hp : ∀ part ∈ ps, part.length < 2 ^ 64)
    (hq : ∀ part ∈ qs, part.length < 2 ^ 64) :
    (framed ps = framed qs ↔ ps = qs) ∧
      (shortToken ps = shortToken qs ↔
        ps = qs ∨ framed ps ≠ framed qs ∧
          (blake3 (framed ps)).take 8 = (blake3 (framed qs)).take 8) := by
  have hframed := Framable.framed_inj hp hq
  refine ⟨hframed, ?_⟩
  rw [shortToken_inj, Ne, hframed]
  by_cases heq : ps = qs
  · simp [heq]
  · simp [heq]

/-- `ab`, `c` and `a`, `bc` are hashed as different bytes, and so are a list and one part that
writes out the frames of that list. -/
theorem token_eq_iff_ab_c :
    framed [[97, 98], [99]] ≠ framed [[97], [98, 99]] ∧
      framed [framed [[97, 98], [99]]] ≠ framed [[97, 98], [99]] := by
  have hparts : ∀ part ∈ [[97, 98], [(99 : UInt8)]], part.length < 2 ^ 64 := by decide
  refine ⟨fun h => ?_, fun h => ?_⟩
  · exact absurd ((token_eq_iff hparts (by decide)).1.1 h) (by decide)
  · exact absurd ((token_eq_iff (by decide) hparts).1.1 h) (by decide)

end LiveNotes.Digest
