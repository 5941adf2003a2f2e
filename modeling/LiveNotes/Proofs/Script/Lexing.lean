import LiveNotes.Script.Token.Lexer
import LiveNotes.Text.Quoted
import Mathlib.Data.List.Basic

/-! The tokens that a text starts with. A name is read as a word up to where it ends, and a text in quotes is
read back as it was before it was quoted, whatever it holds. -/

namespace LiveNotes.Script

open Text

/-- What a computation shows of the ten digits. -/
theorem of_isDecimalDigit {P : Char → Prop}
    (h : ∀ n < 58, isDecimalDigit (Char.ofNat n) = true → P (Char.ofNat n)) {c : Char}
    (hc : isDecimalDigit c = true) : P c := by
  have hle : c ≤ '9' := of_decide_eq_true (Bool.and_eq_true_iff.1 hc).2
  have hchar := h c.toNat (Nat.lt_succ_of_le hle)
  rw [Char.ofNat_toNat] at hchar
  exact hchar hc

/-! ### What stands in front of a token -/

/-- A character that white space and comments do not start with. -/
def IsSolid (c : Char) : Prop := isBlank c = false ∧ isLineEnd c = false ∧ c ≠ '/'

instance (c : Char) : Decidable (IsSolid c) := inferInstanceAs (Decidable (_ ∧ _))

theorem inRanges_iff {n : Nat} {ranges : List (Nat × Nat)} (h : inRanges n ranges = true) :
    ∃ r ∈ ranges, r.1 ≤ n ∧ n ≤ r.2 := by
  induction ranges with
  | nil => contradiction
  | cons r rest ih =>
    obtain ⟨low, high⟩ := r
    rw [inRanges] at h
    split at h
    · contradiction
    · next hlow =>
      rcases Bool.or_eq_true_iff.1 h with h | h
      · exact ⟨_, List.mem_cons_self, Nat.le_of_not_lt hlow, of_decide_eq_true h⟩
      · obtain ⟨r, hr, hle⟩ := ih h
        exact ⟨r, List.mem_cons_of_mem _ hr, hle⟩

/-- The code points that white space and comments start with. -/
def gapCodes : List Nat :=
  [9, 10, 11, 12, 13, 32, 47, 133, 160, 5760, 8192, 8193, 8194, 8195, 8196, 8197, 8198, 8199, 8200, 8201, 8202,
    8203, 8232, 8233, 8239, 8287, 12288, 65279]

theorem mem_gapCodes {c : Char} (h : ¬ IsSolid c) : c.toNat ∈ gapCodes := by
  have hcases : isBlank c = true ∨ isLineEnd c = true ∨ c = '/' := by
    by_contra hnone
    simp only [not_or, Bool.not_eq_true] at hnone
    exact h hnone
  rcases hcases with hblank | hline | rfl
  · rw [isBlank, Bool.or_eq_true, Bool.or_eq_true] at hblank
    rcases hblank with (hc | hc) | hc
    · rw [eq_of_beq hc]
      decide
    · rw [eq_of_beq hc]
      decide
    · obtain ⟨r, hr, hlow, hhigh⟩ := inRanges_iff hc
      simp only [List.mem_cons, List.not_mem_nil, or_false] at hr
      simp only [gapCodes, List.mem_cons, List.not_mem_nil, or_false]
      rcases hr with rfl | rfl | rfl | rfl | rfl | rfl | rfl | rfl | rfl <;> dsimp only at hlow hhigh <;> omega
  · simp only [isLineEnd, Bool.or_eq_true, beq_iff_eq] at hline
    rcases hline with ((rfl | rfl) | hc) | hc
    · decide
    · decide
    · rw [hc]
      decide
    · rw [hc]
      decide
  · decide

theorem isSolid_of_isIdentifierStart {c : Char} (h : isIdentifierStart c = true) : IsSolid c := by
  by_contra hgap
  have hnone : ∀ n ∈ gapCodes, isIdentifierStart (Char.ofNat n) = false := by decide +kernel
  have hc := hnone c.toNat (mem_gapCodes hgap)
  rw [Char.ofNat_toNat, h] at hc
  exact Bool.noConfusion hc

theorem skipTrivia_of_isSolid {text : List Char} (h : ∀ c ∈ text.head?, IsSolid c) (fuel : Nat) (t : Trivia)
    (pos : Nat) : skipTrivia fuel t ⟨text, pos⟩ = some (t, ⟨text, pos⟩) := by
  cases fuel with
  | zero => rfl
  | succ fuel =>
    cases text with
    | nil => simp [skipTrivia]
    | cons c rest =>
      obtain ⟨hblank, hline, hslash⟩ := h c rfl
      simp [skipTrivia, hblank, hline, hslash]

/-- What may stand between two tokens of a text that was written without comments. -/
inductive Gap where
  | none | space | line
  deriving DecidableEq

def Gap.text : Gap → List Char
  | .none => []
  | .space => [' ']
  | .line => ['\n']

theorem skipTrivia_gap {text : List Char} (h : ∀ c ∈ text.head?, IsSolid c) (gap : Gap) (fuel : Nat)
    (t : Trivia) (pos : Nat) :
    ∃ t' start, skipTrivia (fuel + 1) t ⟨gap.text ++ text, pos⟩ = some (t', ⟨text, start⟩) ∧
      t'.pure = t.pure ∧ t'.pureFunction = t.pureFunction := by
  cases gap with
  | none => exact ⟨t, pos, skipTrivia_of_isSolid h .., rfl, rfl⟩
  | space => exact ⟨t, _, skipTrivia_of_isSolid h .., rfl, rfl⟩
  | line => exact ⟨t.endLine, _, skipTrivia_of_isSolid h .., rfl, rfl⟩

/-! ### Words -/

/-- A text that does not go on with a part of a word. -/
def EndsWord (rest : List Char) : Prop := ∀ c ∈ rest.head?, isIdentifierPart c = false ∧ c ≠ '\x5c'

theorem ne_backslash {c : Char} (h : isIdentifierPart c = true) : c ≠ '\x5c' := by
  rintro rfl
  contradiction

theorem readWordRest_parts {word rest acc : List Char} (hword : ∀ c ∈ word, isIdentifierPart c = true)
    (hacc : acc ≠ []) (hrest : EndsWord rest) {fuel : Nat} (hfuel : word.length < fuel) (pos : Nat) :
    ∃ stop, readWordRest fuel acc false ⟨word ++ rest, pos⟩ =
      some (acc.reverse ++ word, false, ⟨rest, stop⟩) := by
  obtain ⟨fuel, rfl⟩ := Nat.exists_eq_succ_of_ne_zero (Nat.ne_of_gt (Nat.zero_lt_of_lt hfuel))
  have hempty : acc.isEmpty = false := by simpa using hacc
  induction word generalizing acc fuel pos with
  | nil =>
    refine ⟨pos, ?_⟩
    cases rest with
    | nil => simp [readWordRest]
    | cons c rest =>
      obtain ⟨hpart, hback⟩ := hrest c rfl
      simp [readWordRest, hback, hempty, hpart]
  | cons c word ih =>
    have hpart := hword c List.mem_cons_self
    have hback := ne_backslash hpart
    rw [List.length_cons] at hfuel
    obtain ⟨fuel, rfl⟩ := Nat.exists_eq_succ_of_ne_zero (Nat.ne_of_gt (Nat.zero_lt_of_lt (Nat.lt_of_succ_lt_succ hfuel)))
    have hrest := ih (fun d hd => hword d (List.mem_cons_of_mem _ hd)) (List.cons_ne_nil c acc)
      (pos + c.utf8Size) fuel (Nat.lt_of_succ_lt_succ hfuel) rfl
    obtain ⟨stop, hstop⟩ := hrest
    refine ⟨stop, ?_⟩
    have hstep : readWordRest (fuel + 1 + 1) acc false ⟨c :: word ++ rest, pos⟩ =
        readWordRest (fuel + 1) (c :: acc) false ⟨word ++ rest, pos + c.utf8Size⟩ := by
      rw [readWordRest]
      simp [hback, hempty, hpart, Place.step]
    rw [hstep, hstop, List.reverse_cons, List.append_assoc, List.singleton_append]

theorem readWordRest_name {text : String} (hname : isIdentifierName text = true) {rest : List Char}
    (hrest : EndsWord rest) {fuel : Nat} (hfuel : text.toList.length < fuel) (pos : Nat) :
    ∃ stop, readWordRest fuel [] false ⟨text.toList ++ rest, pos⟩ = some (text.toList, false, ⟨rest, stop⟩) := by
  rw [isIdentifierName] at hname
  split at hname
  · contradiction
  · next c word hword =>
    obtain ⟨hstart, hparts⟩ := Bool.and_eq_true_iff.1 hname
    rw [hword, List.length_cons] at hfuel
    obtain ⟨fuel, rfl⟩ := Nat.exists_eq_succ_of_ne_zero (Nat.ne_of_gt (Nat.zero_lt_of_lt hfuel))
    have hback := ne_backslash (isIdentifierPart_of_isIdentifierStart hstart)
    obtain ⟨stop, hstop⟩ := readWordRest_parts (List.all_eq_true.1 hparts) (List.cons_ne_nil c []) hrest
      (Nat.lt_of_succ_lt_succ hfuel) (pos + c.utf8Size)
    refine ⟨stop, ?_⟩
    rw [hword, readWordRest]
    simpa [hback, hstart, Place.step] using hstop

/-! ### Numbers -/

theorem not_isIdentifierStart {c : Char} (h : isDecimalDigit c = true) : isIdentifierStart c = false :=
  of_isDecimalDigit (P := fun c => isIdentifierStart c = false) (by decide) h

theorem isIdentifierPart_of_isDecimalDigit {c : Char} (h : isDecimalDigit c = true) : isIdentifierPart c = true :=
  of_isDecimalDigit (P := fun c => isIdentifierPart c = true) (by decide) h

theorem not_isDecimalDigit {c : Char} (h : isIdentifierPart c = false) : isDecimalDigit c = false := by
  by_contra hdigit
  rw [isIdentifierPart_of_isDecimalDigit ((Bool.not_eq_false _).mp hdigit)] at h
  contradiction

theorem takeWhile_append {f : Char → Bool} {taken rest : List Char} (htaken : ∀ c ∈ taken, f c = true)
    (hrest : ∀ c ∈ rest.head?, f c = false) (pos : Nat) :
    ∃ stop, Place.takeWhile f ⟨taken ++ rest, pos⟩ = (taken, ⟨rest, stop⟩) := by
  show ∃ stop, Place.takeWhile.go f (taken ++ rest) pos = (taken, ⟨rest, stop⟩)
  induction taken generalizing pos with
  | nil =>
    refine ⟨pos, ?_⟩
    cases rest with
    | nil => rfl
    | cons c rest => simp [Place.takeWhile.go, hrest c rfl]
  | cons c taken ih =>
    obtain ⟨stop, hstop⟩ := ih (fun d hd => htaken d (List.mem_cons_of_mem _ hd)) (pos + c.utf8Size)
    exact ⟨stop, by simp [Place.takeWhile.go, htaken c List.mem_cons_self, hstop]⟩

theorem separated_of_not_mem {digits : List Char} (h : '_' ∉ digits) : readDigits.separated digits = true := by
  fun_induction readDigits.separated digits with
  | case1 => rfl
  | case2 => exact absurd List.mem_cons_self h
  | case3 => exact absurd (List.mem_cons_of_mem _ List.mem_cons_self) h
  | case4 => exact absurd (List.mem_cons_of_mem _ List.mem_cons_self) h
  | case5 c rest _ _ _ ih => exact ih fun hmem => h (List.mem_cons_of_mem _ hmem)

/-- A text that does not go on with a part of a number. -/
def EndsNumber (rest : List Char) : Prop := ∀ c ∈ rest.head?, isIdentifierPart c = false ∧ c ≠ '\x5c' ∧ c ≠ '.'

theorem isDecimalDigit_of_mem_toDigits {n : Nat} {c : Char} (h : c ∈ Nat.toDigits 10 n) : isDecimalDigit c = true := by
  have hdigit := Nat.isDigit_of_mem_toDigits (by decide) (by decide) h
  simpa [isDecimalDigit, Char.isDigit, Char.le_def] using hdigit

theorem toDigits_eq_cons {n : Nat} (hn : n ≠ 0) : ∃ c digits, Nat.toDigits 10 n = c :: digits ∧ c ≠ '0' := by
  induction n using Nat.strongRecOn with
  | _ n ih =>
    by_cases hlt : n < 10
    · have hchar : ∀ m < 10, m ≠ 0 → Nat.digitChar m ≠ '0' := by decide
      exact ⟨_, _, Nat.toDigits_of_lt_base hlt, hchar n hlt hn⟩
    · have hle : 10 ≤ n := Nat.le_of_not_lt hlt
      obtain ⟨c, digits, hdigits, hc⟩ := ih (n / 10) (by omega) (by omega)
      exact ⟨c, digits ++ [_], by rw [Nat.toDigits_of_base_le (by decide) hle, hdigits, List.cons_append], hc⟩

theorem readDigits_toDigits (n : Nat) {rest : List Char} (hrest : EndsNumber rest) (pos : Nat) :
    ∃ stop, readDigits isDecimalDigit ⟨Nat.toDigits 10 n ++ rest, pos⟩ = some (Nat.toDigits 10 n, ⟨rest, stop⟩) := by
  have htaken : ∀ c ∈ Nat.toDigits 10 n, (isDecimalDigit c || c == '_') = true := by
    intro c hc
    rw [isDecimalDigit_of_mem_toDigits hc, Bool.true_or]
  have hstop : ∀ c ∈ rest.head?, (isDecimalDigit c || c == '_') = false := by
    intro c hc
    have hpart := (hrest c hc).1
    rw [Bool.or_eq_false_iff]
    refine ⟨?_, ?_⟩
    · exact not_isDecimalDigit hpart
    · rw [beq_eq_false_iff_ne]
      rintro rfl
      contradiction
  have hseparated : readDigits.separated (Nat.toDigits 10 n) = true :=
    separated_of_not_mem fun h => absurd (isDecimalDigit_of_mem_toDigits h) (by decide)
  obtain ⟨stop, htake⟩ := takeWhile_append htaken hstop pos
  exact ⟨stop, by simp [readDigits, htake, hseparated]⟩

theorem readDecimal_toDigits (n : Nat) {rest : List Char} (hrest : EndsNumber rest) (pos : Nat) :
    ∃ stop, readNumber.readDecimal ⟨Nat.toDigits 10 n ++ rest, pos⟩ = (.number (toString n), ⟨rest, stop⟩) := by
  obtain ⟨stop, hdigits⟩ := readDigits_toDigits n hrest pos
  refine ⟨stop, ?_⟩
  have hname : String.ofList (Nat.toDigits 10 n) = n.repr := rfl
  rw [readNumber.readDecimal, hdigits, Nat.toString_eq_repr]
  cases rest with
  | nil =>
    simp [readFraction, readExponent, endNumber, hname]
  | cons c rest =>
    obtain ⟨hpart, hback, hdot⟩ := hrest c rfl
    have hstart : isIdentifierStart c = false := by
      by_contra hc
      rw [isIdentifierPart_of_isIdentifierStart ((Bool.not_eq_false _).mp hc)] at hpart
      contradiction
    have hdigit : isDecimalDigit c = false := not_isDecimalDigit hpart
    have hletters : c ≠ 'n' ∧ c ≠ 'e' ∧ c ≠ 'E' := by
      refine ⟨?_, ?_, ?_⟩
      · rintro rfl
        contradiction
      · rintro rfl
        contradiction
      · rintro rfl
        contradiction
    simp [readFraction, readExponent, endNumber, hname, hletters, hdot, hstart, hdigit, hback]

theorem readNumber_toDigits (n : Nat) {rest : List Char} (hrest : EndsNumber rest) (pos : Nat) :
    ∃ stop, readNumber ⟨Nat.toDigits 10 n ++ rest, pos⟩ = (.number (toString n), ⟨rest, stop⟩) := by
  obtain ⟨stop, hdecimal⟩ := readDecimal_toDigits n hrest pos
  refine ⟨stop, ?_⟩
  rw [← hdecimal]
  by_cases hn : n = 0
  · subst hn
    cases rest with
    | nil => rfl
    | cons c rest =>
      obtain ⟨hpart, -, -⟩ := hrest c rfl
      have hdigit : isDecimalDigit c = false := not_isDecimalDigit hpart
      have hletters : ∀ d ∈ ['x', 'X', 'b', 'B', 'o', 'O', '_'], c ≠ d := by
        intro d hd hc
        have hparts : ∀ d ∈ ['x', 'X', 'b', 'B', 'o', 'O', '_'], isIdentifierPart d = true :=
          List.all_eq_true.1 (by decide)
        rw [hc, hparts d hd] at hpart
        contradiction
      simp only [List.mem_cons, List.not_mem_nil, or_false, forall_eq_or_imp, forall_eq] at hletters
      have hzero : Nat.toDigits 10 0 = ['0'] := rfl
      rw [hzero, List.singleton_append]
      simp [readNumber, hletters, hdigit]
  · obtain ⟨c, digits, hdigits, hc⟩ := toDigits_eq_cons hn
    rw [hdigits, List.cons_append]
    unfold readNumber
    split
    · next heq => exact absurd (List.cons.inj heq).1 hc
    · rfl

/-! ### Text in quotes -/

theorem hexDigit?_digitChar : ∀ d < 16, hexDigit? (Nat.digitChar d) = some d := by decide

theorem digitChar_ne_leftBrace : ∀ d < 16, Nat.digitChar d ≠ '{' := by decide

theorem readHex_fourHexDigits {n : Nat} (hn : n < 65536) (rest : List Char) (pos : Nat) :
    ∃ stop, readHex 4 0 ⟨fourHexDigits n ++ rest, pos⟩ = some (n, ⟨rest, stop⟩) := by
  have hdigit : ∀ d, hexDigit? (Nat.digitChar (d % 16)) = some (d % 16) :=
    fun d => hexDigit?_digitChar _ (Nat.mod_lt _ (by decide))
  have hvalue : (((0 * 16 + n / 4096 % 16) * 16 + n / 256 % 16) * 16 + n / 16 % 16) * 16 + n % 16 = n := by
    omega
  simp only [fourHexDigits, List.map_cons, List.map_nil, List.cons_append, List.nil_append, readHex, Place.step,
    hdigit, hvalue]
  exact ⟨_, rfl⟩

/-- A code point in four hexadecimal digits, unless it is the first of two that make one. -/
theorem readEscape_fourHexDigits {n : Nat} (hn : n < 65536) (hhigh : isHighSurrogate n = false) (fuel : Nat)
    (rest : List Char) (pos : Nat) :
    ∃ stop, readEscape true fuel ⟨'u' :: (fourHexDigits n ++ rest), pos⟩ = some ([n], ⟨rest, stop⟩) := by
  obtain ⟨stop, hhex⟩ := readHex_fourHexDigits hn rest (pos + 1)
  have hbrace := digitChar_ne_leftBrace (n / 4096 % 16) (Nat.mod_lt _ (by decide))
  have hescape : readUnicodeEscape fuel ⟨fourHexDigits n ++ rest, pos + 1⟩ = some (n, ⟨rest, stop⟩) := by
    rw [← hhex, fourHexDigits, List.map_cons, List.cons_append, readUnicodeEscape]
    simp [hbrace]
  have hpoint : readCodePoint fuel ⟨fourHexDigits n ++ rest, pos + 1⟩ = some (n, ⟨rest, stop⟩) := by
    rw [readCodePoint, hescape, Option.map_some, fourHexDigits, List.map_cons, List.cons_append]
    simp [hbrace, joinSurrogate, hhigh]
  refine ⟨stop, ?_⟩
  have hread : readEscape true fuel ⟨'u' :: (fourHexDigits n ++ rest), pos⟩ =
      (readCodePoint fuel ⟨fourHexDigits n ++ rest, pos + 1⟩).map fun p => ([p.1], p.2) := rfl
  rw [hread, hpoint]
  rfl

theorem readStringBody_escape {escape rest : List Char} {n pos stop fuel : Nat} (acc : List Nat)
    (h : readEscape true fuel ⟨escape ++ rest, pos + 1⟩ = some ([n], ⟨rest, stop⟩)) :
    readStringBody '\x22' (fuel + 1) acc ⟨'\x5c' :: escape ++ rest, pos⟩ =
      readStringBody '\x22' fuel (n :: acc) ⟨rest, stop⟩ := by
  have hplace : (Place.mk ('\x5c' :: escape ++ rest) pos).step '\x5c' (escape ++ rest) =
      ⟨escape ++ rest, pos + 1⟩ := rfl
  rw [readStringBody]
  simp only [List.cons_append] at hplace ⊢
  simp [hplace, h]

/-- A character between quotes is read back as itself. -/
theorem readStringBody_quoteChar (c : Char) (fuel : Nat) (acc : List Nat) (rest : List Char) (pos : Nat) :
    ∃ stop, readStringBody '\x22' (fuel + 1) acc ⟨quoteChar c ++ rest, pos⟩ =
      readStringBody '\x22' fuel (c.toNat :: acc) ⟨rest, stop⟩ := by
  by_cases hcontrol : c.toNat < 32
  · have hescape : ∃ escape stop, quoteChar c = '\x5c' :: escape ∧
        readEscape true fuel ⟨escape ++ rest, pos + 1⟩ = some ([c.toNat], ⟨rest, stop⟩) := by
      by_cases hletter : c ∈ ['\x08', '\x09', '\x0a', '\x0c', '\x0d']
      · simp only [List.mem_cons, List.not_mem_nil, or_false] at hletter
        rcases hletter with rfl | rfl | rfl | rfl | rfl
        · exact ⟨['b'], _, rfl, rfl⟩
        · exact ⟨['t'], _, rfl, rfl⟩
        · exact ⟨['n'], _, rfl, rfl⟩
        · exact ⟨['f'], _, rfl, rfl⟩
        · exact ⟨['r'], _, rfl, rfl⟩
      · have hquote : quoteChar c = '\x5c' :: 'u' :: fourHexDigits c.toNat := by
          have hmarks : c ≠ '\x22' ∧ c ≠ '\x5c' :=
            ⟨by rintro rfl; exact absurd hcontrol (by decide), by rintro rfl; exact absurd hcontrol (by decide)⟩
          simp only [List.mem_cons, List.not_mem_nil, or_false, not_or] at hletter
          simp [quoteChar, hmarks, hletter, hcontrol]
        have hhigh : isHighSurrogate c.toNat = false := by
          simp only [isHighSurrogate, Bool.and_eq_false_iff, decide_eq_false_iff_not]
          omega
        obtain ⟨stop, hstop⟩ := readEscape_fourHexDigits (by omega) hhigh fuel rest (pos + 1)
        exact ⟨_, stop, hquote, hstop⟩
    obtain ⟨escape, stop, hquote, hread⟩ := hescape
    exact ⟨stop, by rw [hquote, readStringBody_escape acc hread]⟩
  · by_cases hmark : c = '\x22' ∨ c = '\x5c'
    · have hescape : quoteChar c = ['\x5c', c] ∧
          readEscape true fuel ⟨[c] ++ rest, pos + 1⟩ = some ([c.toNat], ⟨rest, pos + 1 + c.utf8Size⟩) := by
        rcases hmark with rfl | rfl
        · exact ⟨rfl, rfl⟩
        · exact ⟨rfl, rfl⟩
      exact ⟨_, by rw [hescape.1, readStringBody_escape acc hescape.2]⟩
    · rw [not_or] at hmark
      have hletters : ∀ d ∈ ['\x08', '\x09', '\x0a', '\x0c', '\x0d'], c ≠ d := by
        intro d hd hc
        have hlow : ∀ d ∈ ['\x08', '\x09', '\x0a', '\x0c', '\x0d'], decide (d.toNat < 32) = true :=
          List.all_eq_true.1 (by decide)
        exact hcontrol (hc ▸ of_decide_eq_true (hlow d hd))
      have hquote : quoteChar c = [c] := by
        simp only [List.mem_cons, List.not_mem_nil, or_false, forall_eq_or_imp, forall_eq] at hletters
        simp [quoteChar, hmark, hletters, hcontrol]
      have hnewline : c ≠ '\n' := hletters _ (by decide)
      have hreturn : c ≠ '\x0d' := hletters _ (by decide)
      refine ⟨pos + c.utf8Size, ?_⟩
      rw [hquote, readStringBody]
      simp [hmark, hnewline, hreturn, Place.step]

theorem length_quoteChar_pos (c : Char) : 0 < (quoteChar c).length := by
  have hne : quoteChar c ≠ [] := by
    unfold quoteChar
    split_ifs <;> exact List.cons_ne_nil _ _
  exact List.length_pos_iff.2 hne

theorem length_le_length_quoteChars (cs : List Char) : cs.length ≤ (quoteChars cs).length := by
  induction cs with
  | nil => exact Nat.le_refl _
  | cons c cs ih =>
    have hpos := length_quoteChar_pos c
    rw [quoteChars, List.flatMap_cons, List.length_append, List.length_cons]
    rw [quoteChars] at ih
    omega

theorem readStringBody_quoteChars (cs : List Char) {fuel : Nat} (hfuel : cs.length < fuel) (acc : List Nat)
    (rest : List Char) (pos : Nat) :
    ∃ stop, readStringBody '\x22' fuel acc ⟨quoteChars cs ++ '\x22' :: rest, pos⟩ =
      some (acc.reverse ++ cs.map Char.toNat, ⟨rest, stop⟩) := by
  obtain ⟨fuel, rfl⟩ := Nat.exists_eq_succ_of_ne_zero (Nat.ne_of_gt (Nat.zero_lt_of_lt hfuel))
  induction cs generalizing acc fuel pos with
  | nil => exact ⟨pos + '\x22'.utf8Size, by simp [quoteChars, readStringBody, Place.step]⟩
  | cons c cs ih =>
    rw [List.length_cons] at hfuel
    obtain ⟨fuel, rfl⟩ := Nat.exists_eq_succ_of_ne_zero
      (Nat.ne_of_gt (Nat.zero_lt_of_lt (Nat.lt_of_succ_lt_succ hfuel)))
    obtain ⟨start, hstep⟩ := readStringBody_quoteChar c (fuel + 1) acc (quoteChars cs ++ '\x22' :: rest) pos
    obtain ⟨stop, hrest⟩ := ih (c.toNat :: acc) start fuel (Nat.lt_of_succ_lt_succ hfuel)
    refine ⟨stop, ?_⟩
    have happend : quoteChars (c :: cs) ++ '\x22' :: rest =
        quoteChar c ++ (quoteChars cs ++ '\x22' :: rest) := by
      rw [quoteChars, List.flatMap_cons, List.append_assoc]
      rfl
    rw [happend, hstep, hrest, List.reverse_cons, List.append_assoc, List.map_cons, List.singleton_append]

/-- The characters of a text are no halves of code points. -/
theorem textOfCodePoints_toNat (s : String) : textOfCodePoints (s.toList.map Char.toNat) = (s, false) := by
  have hvalid : ∀ c : Char, isSurrogate c.toNat = false := by
    intro c
    rcases c.valid with hc | hc
    · simp only [isSurrogate, Bool.and_eq_false_iff, decide_eq_false_iff_not]
      left
      exact Nat.not_le.2 hc
    · simp only [isSurrogate, Bool.and_eq_false_iff, decide_eq_false_iff_not]
      right
      exact Nat.not_le.2 hc.1
  have hany : (s.toList.map Char.toNat).any isSurrogate = false := by
    simp [hvalid]
  have hchars : ∀ cs : List Char, (cs.map Char.toNat).flatMap (fun n =>
      if isSurrogate n || (false && n == 0xfffd) then Char.ofNat 0xfffd :: hexFour n else [Char.ofNat n]) = cs := by
    intro cs
    induction cs with
    | nil => rfl
    | cons c cs ih =>
      rw [List.map_cons, List.flatMap_cons, ih, hvalid]
      simp
  rw [textOfCodePoints, hany]
  simp only [hchars, String.ofList_toList]

/-! ### Tokens -/

/-- A text starts with a token, behind which `rest` stands. -/
structure StartsWith (text : List Char) (kind : TokenKind) (rest : List Char) : Prop where
  solid : ∀ c ∈ text.head?, IsSolid c
  shorter : rest.length ≤ text.length
  reads : ∀ fuel pos, text.length < fuel → ∃ stop, readKind fuel ⟨text, pos⟩ = (kind, ⟨rest, stop⟩)

theorem startsWith_finish : StartsWith [] .finish [] :=
  ⟨fun _ h => by contradiction, Nat.le_refl _, fun fuel pos _ => ⟨pos, rfl⟩⟩

theorem exists_cons_of_isIdentifierName {text : String} (h : isIdentifierName text = true) :
    ∃ c word, text.toList = c :: word ∧ isIdentifierStart c = true := by
  rw [isIdentifierName] at h
  split at h
  · contradiction
  · next c word hword => exact ⟨c, word, hword, (Bool.and_eq_true_iff.1 h).1⟩

theorem startsWith_word {text : String} (hname : isIdentifierName text = true) {rest : List Char}
    (hrest : EndsWord rest) : StartsWith (text.toList ++ rest) (.word text false) rest := by
  obtain ⟨c, word, hword, hstart⟩ := exists_cons_of_isIdentifierName hname
  refine ⟨?_, ?_, fun fuel pos hfuel => ?_⟩
  · intro d hd
    rw [hword, List.cons_append, List.head?_cons, Option.mem_def, Option.some.injEq] at hd
    exact hd ▸ isSolid_of_isIdentifierStart hstart
  · rw [List.length_append]
    exact Nat.le_add_left _ _
  · rw [List.length_append] at hfuel
    obtain ⟨stop, hstop⟩ := readWordRest_name hname hrest (Nat.lt_of_le_of_lt (Nat.le_add_right _ _) hfuel) pos
    have hquote : (c == '\x22' || c == '\x27') = false := by
      rw [Bool.or_eq_false_iff, beq_eq_false_iff_ne, beq_eq_false_iff_ne]
      constructor
      · rintro rfl
        exact absurd hstart (by decide)
      · rintro rfl
        exact absurd hstart (by decide)
    refine ⟨stop, ?_⟩
    rw [hword] at hstop ⊢
    have htext : String.ofList (c :: word) = text := by rw [← hword, String.ofList_toList]
    have hdigit : isDecimalDigit c = false := by
      by_contra hdigit
      rw [not_isIdentifierStart ((Bool.not_eq_false _).mp hdigit)] at hstart
      contradiction
    simp only [readKind, List.cons_append, hdigit, hquote, hstart, Bool.true_or, if_true,
      Bool.false_eq_true, if_false]
    rw [← List.cons_append, hstop]
    dsimp only
    rw [htext]

theorem startsWith_number (n : Nat) {rest : List Char} (hrest : EndsNumber rest) :
    StartsWith ((toString n).toList ++ rest) (.number (toString n)) rest := by
  have htext : (toString n).toList = Nat.toDigits 10 n := by
    rw [Nat.toString_eq_repr, Nat.repr, String.toList_ofList]
  obtain ⟨c, digits, hdigits⟩ : ∃ c digits, Nat.toDigits 10 n = c :: digits :=
    List.exists_cons_of_length_pos Nat.length_toDigits_pos
  have hdigit : isDecimalDigit c = true := by
    have hmem : c ∈ Nat.toDigits 10 n := by
      rw [hdigits]
      exact List.mem_cons_self
    exact isDecimalDigit_of_mem_toDigits hmem
  rw [htext]
  refine ⟨?_, ?_, fun fuel pos hfuel => ?_⟩
  · intro d hd
    rw [hdigits, List.cons_append, List.head?_cons, Option.mem_def, Option.some.injEq] at hd
    exact hd ▸ of_isDecimalDigit (P := IsSolid) (by decide) hdigit
  · rw [List.length_append]
    exact Nat.le_add_left _ _
  · obtain ⟨stop, hnumber⟩ := readNumber_toDigits n hrest pos
    refine ⟨stop, ?_⟩
    rw [← hnumber, hdigits, List.cons_append]
    simp [readKind, hdigit]

theorem startsWith_quoted (s : String) (rest : List Char) :
    StartsWith ((quoted s).toList ++ rest) (.string s false) rest := by
  have htext : (quoted s).toList ++ rest = '\x22' :: (quoteChars s.toList ++ '\x22' :: rest) := by
    simp [quoted]
  rw [htext]
  refine ⟨?_, ?_, fun fuel pos hfuel => ?_⟩
  · intro c hc
    rw [List.head?_cons, Option.mem_def, Option.some.injEq] at hc
    exact hc ▸ by decide
  · simp only [List.length_cons, List.length_append]
    omega
  · have hlength := length_le_length_quoteChars s.toList
    simp only [List.length_cons, List.length_append] at hfuel
    have hbound : s.toList.length < fuel := by omega
    obtain ⟨stop, hstop⟩ := readStringBody_quoteChars s.toList hbound [] rest (pos + 1)
    refine ⟨stop, ?_⟩
    have hpoints := textOfCodePoints_toNat s
    have hplace : (Place.mk ('\x22' :: (quoteChars s.toList ++ '\x22' :: rest)) pos).step '\x22'
        (quoteChars s.toList ++ '\x22' :: rest) = ⟨quoteChars s.toList ++ '\x22' :: rest, pos + 1⟩ := rfl
    have hdigit : isDecimalDigit '\x22' = false := by decide
    simp only [readKind, hdigit, Bool.false_eq_true, if_false, beq_self_eq_true, Bool.true_or, if_true, hplace,
      hstop, List.reverse_nil, List.nil_append, hpoints]

/-- A character that makes a token alone. -/
theorem startsWith_punct {c : Char} {p : Punct} {rest : List Char} (hsolid : IsSolid c)
    (hother : isDecimalDigit c = false ∧ isIdentifierStart c = false ∧
      c ∉ ['\x22', '\x27', '\x5c', '.', '#']) (hpunct : punct? (c :: rest) = some (p, 1)) :
    StartsWith (c :: rest) (.punct p) rest := by
  refine ⟨?_, Nat.le_succ _, fun fuel pos _ => ⟨pos + 1, ?_⟩⟩
  · intro d hd
    rw [List.head?_cons, Option.mem_def, Option.some.injEq] at hd
    exact hd ▸ hsolid
  · obtain ⟨hdigit, hstart, hmarks⟩ := hother
    simp only [List.mem_cons, List.not_mem_nil, or_false, not_or] at hmarks
    simp [readKind, hdigit, hstart, hmarks, hpunct]

/-- The tokens that a text starts with, with nothing but gaps between them, and what stands behind them. -/
inductive Lexes : List Char → List TokenKind → List Char → Prop
  | done (rest : List Char) : Lexes rest [] rest
  | token (gap : Gap) {text after rest : List Char} {kind : TokenKind} {more : List TokenKind} :
      StartsWith text kind after → Lexes after more rest → Lexes (gap.text ++ text) (kind :: more) rest

theorem Lexes.append {text middle rest : List Char} {tokens more : List TokenKind} (h : Lexes text tokens middle)
    (h' : Lexes middle more rest) : Lexes text (tokens ++ more) rest := by
  induction h with
  | done => exact h'
  | token gap hstarts _ ih => exact Lexes.token gap hstarts (ih h')

/-- Without a gap in front, the text itself starts with the first token. -/
theorem Lexes.first {text rest : List Char} {kind : TokenKind} {more : List TokenKind}
    (h : Lexes text (kind :: more) rest) (hsolid : ∀ c ∈ text.head?, IsSolid c) :
    ∃ after, StartsWith text kind after ∧ Lexes after more rest := by
  cases h with
  | token gap hstarts hmore =>
    cases gap with
    | none => exact ⟨_, hstarts, hmore⟩
    | space => exact absurd (hsolid ' ' rfl) (by decide)
    | line => exact absurd (hsolid '\n' rfl) (by decide)

theorem readToken_of_startsWith {text after : List Char} {kind : TokenKind} (h : StartsWith text kind after)
    (gap : Gap) {size : Nat} (hsize : text.length ≤ size) (t : Trivia) (pos : Nat) :
    let r := readToken (size + 1) t ⟨gap.text ++ text, pos⟩
    r.token.kind = kind ∧ r.token.pure = t.pure ∧ r.token.pureFunction = t.pureFunction ∧ r.after.rest = after := by
  obtain ⟨t', start, hskip, hpure, hfunction⟩ := skipTrivia_gap h.solid gap size t pos
  obtain ⟨stop, hkind⟩ := h.reads (size + 1) start (Nat.lt_succ_of_le hsize)
  simp only [readToken, hskip, hkind, hpure, hfunction, and_self]

end LiveNotes.Script
