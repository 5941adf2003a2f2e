import LiveNotes.Script.Grammar.Operator
import LiveNotes.Text.Bytes
import Mathlib.Tactic.Basic

/-! Every reader of characters leads to a place behind the characters it passes over, at the position that
they add up to. -/

namespace LiveNotes.Script

open Text

namespace Place

/-- `q` is the place behind the characters `passed` that stand at `p`. -/
structure Passes (p : Place) (passed : List Char) (q : Place) : Prop where
  rest : p.rest = passed ++ q.rest
  pos : q.pos = p.pos + byteLength passed

/-- `q` is the place behind some of the characters that stand at `p`. -/
def Reaches (p q : Place) : Prop := ∃ passed, p.Passes passed q

variable {p q r : Place} {passed more : List Char} {c : Char} {rest : List Char}

theorem Passes.refl (p : Place) : p.Passes [] p := ⟨rfl, rfl⟩

theorem Passes.trans (h : p.Passes passed q) (h' : q.Passes more r) : p.Passes (passed ++ more) r :=
  ⟨by rw [h.rest, h'.rest, List.append_assoc], by rw [h'.pos, h.pos, byteLength_append, Nat.add_assoc]⟩

theorem Passes.le (h : p.Passes passed q) : p.pos ≤ q.pos := h.pos ▸ Nat.le_add_right _ _

theorem Passes.reaches (h : p.Passes passed q) : p.Reaches q := ⟨passed, h⟩

theorem passes_step (h : p.rest = c :: rest) : p.Passes [c] (p.step c rest) :=
  ⟨h, by simp [step, byteLength]⟩

@[refl] theorem Reaches.refl (p : Place) : p.Reaches p := ⟨[], .refl p⟩

theorem Reaches.trans (h : p.Reaches q) (h' : q.Reaches r) : p.Reaches r := by
  obtain ⟨passed, h⟩ := h
  obtain ⟨more, h'⟩ := h'
  exact ⟨passed ++ more, h.trans h'⟩

theorem Reaches.le (h : p.Reaches q) : p.pos ≤ q.pos := by
  obtain ⟨passed, h⟩ := h
  exact h.le

theorem reaches_step (h : p.rest = c :: rest) : p.Reaches (p.step c rest) := ⟨[c], passes_step h⟩

/-- Passing over characters of one byte each. -/
theorem reaches_skip (passed : List Char) (h : p.rest = passed ++ rest) (hsize : byteLength passed = passed.length) :
    p.Reaches (p.skip passed.length) :=
  ⟨passed, by simp [skip, h], by simp [skip, hsize]⟩

theorem passes_takeWhile (f : Char → Bool) (p : Place) : p.Passes (p.takeWhile f).1 (p.takeWhile f).2 := by
  obtain ⟨rest, pos⟩ := p
  rw [takeWhile]
  induction rest generalizing pos with
  | nil => exact .refl _
  | cons c rest ih =>
    rw [takeWhile.go]
    cases f c with
    | false => exact .refl _
    | true => exact (passes_step rfl).trans (ih (pos + c.utf8Size))

theorem reaches_takeWhile (f : Char → Bool) (p : Place) : p.Reaches (p.takeWhile f).2 :=
  (passes_takeWhile f p).reaches

end Place

open Place

variable {p q : Place} {fuel n m : Nat} {acc : Option Nat} {points points' : List Nat}

/-! ### Escapes -/

theorem reaches_readHexBrace (h : readHexBrace fuel acc p = some (n, q)) : p.Reaches q := by
  fun_induction readHexBrace fuel acc p with
  | case1 | case2 | case4 | case5 => simp at h
  | case3 fuel acc p c rest hrest hclose =>
    obtain ⟨_, _, _, rfl⟩ := by simpa using h
    exact reaches_step hrest
  | case6 fuel acc p c rest hrest _ d _ value _ ih => exact (reaches_step hrest).trans (ih h)

theorem reaches_readHex (h : readHex n m p = some (fuel, q)) : p.Reaches q := by
  fun_induction readHex n m p with
  | case1 =>
    obtain ⟨_, rfl⟩ := by simpa using h
    rfl
  | case2 | case3 => simp at h
  | case4 n acc p c rest hrest d _ ih => exact (reaches_step hrest).trans (ih h)

theorem reaches_readUnicodeEscape (h : readUnicodeEscape fuel p = some (n, q)) : p.Reaches q := by
  rw [readUnicodeEscape] at h
  split at h
  next rest hrest => exact (reaches_step hrest).trans (reaches_readHexBrace h)
  next => exact reaches_readHex h

theorem reaches_joinSurrogate (n : Nat) (p : Place) : p.Reaches (joinSurrogate n p).2 := by
  rw [joinSurrogate]
  split
  next => rfl
  next =>
    split
    next rest hrest =>
      have hskip : p.Reaches (p.skip 2) := reaches_skip ['\x5c', 'u'] hrest rfl
      split
      next low after hlow =>
        split
        next => exact hskip.trans (reaches_readHex hlow)
        next => rfl
      next => rfl
    next => rfl

theorem reaches_readCodePoint (h : readCodePoint fuel p = some (n, q)) : p.Reaches q := by
  rw [readCodePoint, Option.map_eq_some_iff] at h
  obtain ⟨⟨m, after⟩, hescape, h⟩ := h
  have hafter := reaches_readUnicodeEscape hescape
  dsimp only at h
  split at h
  next =>
    obtain ⟨_, rfl⟩ := by simpa using h
    exact hafter
  next =>
    have hjoin := reaches_joinSurrogate m after
    rw [h] at hjoin
    exact hafter.trans hjoin

theorem reaches_readOctal (n : Nat) (p : Place) : p.Reaches (readOctal n p).2 := by
  rw [readOctal]
  split
  next a rest hrest =>
    have hone := reaches_step hrest
    split
    next => rfl
    next x _ =>
      split
      next => exact hone
      next =>
        split
        next b rest' =>
          split
          next => exact hone.trans (reaches_step rfl)
          next => exact hone
        next => exact hone
  next => rfl

theorem reaches_readDigitEscape {octal : Bool} {c : Char} (h : readDigitEscape octal c p = some (points, q)) :
    p.Reaches q := by
  unfold readDigitEscape at h
  split at h
  next d _ =>
    have hoctal := reaches_readOctal d p
    obtain ⟨_, rfl⟩ := by simpa using h
    exact hoctal
  next =>
    obtain ⟨_, rfl⟩ := by simpa using h
    rfl
  next =>
    split at h
    next =>
      obtain ⟨_, rfl⟩ := by simpa using h
      rfl
    next => simp at h

theorem reaches_readEscape {octal : Bool} (h : readEscape octal fuel p = some (points, q)) : p.Reaches q := by
  rw [readEscape] at h
  split at h
  next => simp at h
  next rest hrest =>
    obtain ⟨⟨n, after⟩, hhex, h⟩ := Option.map_eq_some_iff.1 h
    obtain ⟨_, rfl⟩ := by simpa using h
    exact (reaches_skip ['x'] hrest rfl).trans (reaches_readHex hhex)
  next rest hrest =>
    obtain ⟨⟨n, after⟩, hpoint, h⟩ := Option.map_eq_some_iff.1 h
    obtain ⟨_, rfl⟩ := by simpa using h
    exact (reaches_skip ['u'] hrest rfl).trans (reaches_readCodePoint hpoint)
  next rest hrest =>
    obtain ⟨_, rfl⟩ := by simpa using h
    exact reaches_skip ['\x0d', '\n'] hrest rfl
  next c rest _ _ _ hrest =>
    have hstep := reaches_step hrest
    dsimp only at h
    split at h
    next =>
      obtain ⟨_, rfl⟩ := by simpa using h
      exact hstep
    next =>
      split at h
      next => exact hstep.trans (reaches_readDigitEscape h)
      next =>
        obtain ⟨_, rfl⟩ := by simpa using h
        exact hstep

theorem reaches_readStringBody {quote : Char} (h : readStringBody quote fuel points p = some (points', q)) :
    p.Reaches q := by
  fun_induction readStringBody quote fuel points p with
  | case1 | case2 | case4 | case6 => simp at h
  | case3 fuel acc p c rest hrest _ _ =>
    obtain ⟨_, rfl⟩ := by simpa using h
    exact reaches_step hrest
  | case5 fuel acc p c rest hrest _ _ _ _ ih => exact (reaches_step hrest).trans (ih h)
  | case7 fuel acc p c rest hrest after _ _ _ points place hescape ih =>
    exact (reaches_step hrest).trans ((reaches_readEscape hescape).trans (ih h))

/-- Raw text of a template ends in front of its closing mark or of the mark of a substitution. -/
theorem reaches_readQuasi {chars raw : List Char} {ended : Bool} (h : readQuasi fuel chars p = some (raw, ended, q)) :
    ∃ stop, p.Reaches stop ∧ stop.Reaches q ∧ stop.pos = q.pos - if ended then 1 else 2 := by
  fun_induction readQuasi fuel chars p with
  | case1 | case2 => simp at h
  | case3 fuel acc p rest hrest =>
    obtain ⟨_, rfl, rfl⟩ := by simpa using h
    exact ⟨p, .refl p, reaches_skip ['\x60'] hrest rfl, by simp [skip]⟩
  | case4 fuel acc p rest hrest =>
    obtain ⟨_, rfl, rfl⟩ := by simpa using h
    exact ⟨p, .refl p, reaches_skip ['$', '{'] hrest rfl, by simp [skip]⟩
  | case5 fuel acc p rest hrest ih =>
    obtain ⟨stop, hstop, hq⟩ := ih h
    exact ⟨stop, (reaches_skip ['\x5c', '\x0d', '\n'] hrest rfl).trans hstop, hq⟩
  | case6 fuel acc p rest _ hrest ih =>
    obtain ⟨stop, hstop, hq⟩ := ih h
    exact ⟨stop, (reaches_skip ['\x5c', '\x0d'] hrest rfl).trans hstop, hq⟩
  | case7 fuel acc p e rest _ _ hrest ih =>
    obtain ⟨stop, hstop, hq⟩ := ih h
    have hpair : p.Reaches ⟨rest, p.pos + 1 + e.utf8Size⟩ :=
      (reaches_step hrest).trans (reaches_step rfl)
    exact ⟨stop, hpair.trans hstop, hq⟩
  | case8 fuel acc p rest hrest ih =>
    obtain ⟨stop, hstop, hq⟩ := ih h
    exact ⟨stop, (reaches_skip ['\x0d', '\n'] hrest rfl).trans hstop, hq⟩
  | case9 fuel acc p rest _ hrest ih =>
    obtain ⟨stop, hstop, hq⟩ := ih h
    exact ⟨stop, (reaches_skip ['\x0d'] hrest rfl).trans hstop, hq⟩
  | case10 fuel acc p c rest _ _ _ _ _ _ _ hrest ih =>
    obtain ⟨stop, hstop, hq⟩ := ih h
    exact ⟨stop, (reaches_step hrest).trans hstop, hq⟩

/-! ### Words and numbers -/

/-- The text of a word is the word, or holds an escape. -/
theorem passes_readWordRest {chars word : List Char} {escaped found : Bool}
    (h : readWordRest fuel chars escaped p = some (word, found, q)) :
    ∃ passed, p.Passes passed q ∧
      (found = escaped ∧ word = chars.reverse ++ passed ∨ found = true ∧ '\x5c' ∈ passed) := by
  fun_induction readWordRest fuel chars escaped p with
  | case1 | case2 | case4 | case5 => simp at h
  | case3 fuel acc escaped p rest hrest n place hescape c _ ih =>
    obtain ⟨passed, hpassed, hfound⟩ := ih h
    obtain ⟨escape, hescape⟩ := reaches_readUnicodeEscape hescape
    have hmarks : p.Passes ['\x5c', 'u'] ⟨rest, p.pos + 2⟩ := ⟨hrest, rfl⟩
    refine ⟨_, hmarks.trans (hescape.trans hpassed), .inr ⟨?_, by simp⟩⟩
    rcases hfound with ⟨hfound, _⟩ | ⟨hfound, _⟩ <;> exact hfound
  | case6 fuel acc escaped p c rest _ _ hrest _ ih =>
    obtain ⟨passed, hpassed, hfound⟩ := ih h
    refine ⟨c :: passed, (passes_step hrest).trans hpassed, ?_⟩
    rcases hfound with ⟨hfound, hword⟩ | ⟨hfound, hescape⟩
    · exact .inl ⟨hfound, by simpa using hword⟩
    · exact .inr ⟨hfound, List.mem_cons_of_mem c hescape⟩
  | case7 =>
    obtain ⟨rfl, rfl, rfl⟩ := by simpa using h
    exact ⟨[], .refl _, .inl ⟨rfl, by simp⟩⟩
  | case8 =>
    obtain ⟨rfl, rfl, rfl⟩ := by simpa using h
    exact ⟨[], .refl _, .inl ⟨rfl, by simp⟩⟩

theorem reaches_readWordRest {chars word : List Char} {escaped found : Bool}
    (h : readWordRest fuel chars escaped p = some (word, found, q)) : p.Reaches q := by
  obtain ⟨passed, hpassed, _⟩ := passes_readWordRest h
  exact hpassed.reaches

theorem isIdentifierName_concat {chars : List Char} {c : Char} (h : isIdentifierName (String.ofList chars) = true)
    (hc : isIdentifierPart c = true) : isIdentifierName (String.ofList (chars ++ [c])) = true := by
  cases chars with
  | nil => contradiction
  | cons first rest =>
    simp only [isIdentifierName, String.toList_ofList, List.cons_append, List.all_append, Bool.and_eq_true] at h ⊢
    exact ⟨h.1, h.2, by simpa using hc⟩

/-- What starts with a name goes on as one. -/
theorem isIdentifierName_readWordRest {chars word : List Char} {escaped found : Bool}
    (h : readWordRest fuel chars escaped p = some (word, found, q))
    (hchars : isIdentifierName (String.ofList chars.reverse) = true) : isIdentifierName (String.ofList word) = true := by
  have hmore {acc : List Char} {c : Char} (hacc : isIdentifierName (String.ofList acc.reverse) = true)
      (hc : (if acc.isEmpty then isIdentifierStart c else isIdentifierPart c) = true) :
      isIdentifierName (String.ofList (c :: acc).reverse) = true := by
    cases acc with
    | nil => contradiction
    | cons first rest =>
      rw [List.reverse_cons]
      exact isIdentifierName_concat hacc hc
  fun_induction readWordRest fuel chars escaped p with
  | case1 | case2 | case4 | case5 => simp at h
  | case3 fuel acc escaped p rest hrest n place hescape c hc ih => exact ih h (hmore hchars hc)
  | case6 fuel acc escaped p c rest _ _ hrest hc ih => exact ih h (hmore hchars hc)
  | case7 | case8 =>
    obtain ⟨rfl, rfl, rfl⟩ := by simpa using h
    exact hchars

theorem isIdentifierName_readWord {word : List Char} {escaped found : Bool} {c : Char} {rest : List Char}
    (h : readWordRest fuel [] escaped p = some (word, found, q)) (hrest : p.rest = c :: rest)
    (hc : (isIdentifierStart c || c == '\x5c') = true) : isIdentifierName (String.ofList word) = true := by
  have hone {c : Char} (hc : isIdentifierStart c = true) : isIdentifierName (String.ofList [c].reverse) = true := by
    simpa [isIdentifierName] using hc
  obtain _ | fuel := fuel
  · simp [readWordRest] at h
  simp only [readWordRest, List.isEmpty_nil, if_true] at h
  split at h
  next =>
    split at h
    next => simp at h
    next =>
      split at h
      next hstart => exact isIdentifierName_readWordRest h (hone hstart)
      next => simp at h
  next => simp at h
  next first more hescape hslash hrest' =>
    obtain ⟨rfl, rfl⟩ : c = first ∧ rest = more := by simpa using hrest.symm.trans hrest'
    split at h
    next hstart => exact isIdentifierName_readWordRest h (hone hstart)
    next hstart =>
      rcases Bool.or_eq_true_iff.1 hc with hstart' | hback
      · exact absurd hstart' hstart
      · exact absurd (beq_iff_eq.1 hback) hslash
  next hend => simp [hrest] at hend

theorem reaches_readDigits {f : Char → Bool} {digits : List Char} (h : readDigits f p = some (digits, q)) :
    p.Reaches q := by
  have htake := reaches_takeWhile (fun c => f c || c == '_') p
  simp only [readDigits] at h
  split at h
  next =>
    have hafter : (p.takeWhile fun c => f c || c == '_').2 = q := congrArg Prod.snd (Option.some.inj h)
    exact hafter ▸ htake
  next => simp at h

theorem endNumber_place (kind : TokenKind) (p : Place) : (endNumber kind p).2 = p := by
  rw [endNumber]
  split
  next => split <;> rfl
  next => rfl

theorem reaches_exponentDigits {place : Place} {sign digits : List Char} (hplace : p.Reaches place)
    (h : (match readDigits isDecimalDigit place with
      | some ([], _) | none => none
      | some (digits, after) => some ('e' :: sign ++ digits, after)) = some (digits, q)) : p.Reaches q := by
  split at h
  next => simp at h
  next => simp at h
  next hdigits =>
    obtain ⟨_, rfl⟩ := by simpa using h
    exact hplace.trans (reaches_readDigits hdigits)

theorem reaches_readExponent {digits : List Char} (h : readExponent p = some (digits, q)) : p.Reaches q := by
  unfold readExponent at h
  split at h
  next e rest hrest =>
    have hmark := reaches_step hrest
    split at h
    next =>
      dsimp only at h
      refine reaches_exponentDigits ?_ h
      split
      next => exact hmark.trans (reaches_step rfl)
      next => exact hmark.trans (reaches_step rfl)
      next => exact hmark
    next =>
      obtain ⟨_, rfl⟩ := by simpa using h
      rfl
  next =>
    obtain ⟨_, rfl⟩ := by simpa using h
    rfl

theorem reaches_readRadix (mark : List Char) (base : Nat) (p : Place) : p.Reaches (readRadix mark base p).2 := by
  rw [readRadix]
  split
  next => rfl
  next => rfl
  next digits after _ hdigits =>
    have hafter := reaches_readDigits hdigits
    split
    next hrest =>
      rw [endNumber_place]
      exact hafter.trans (reaches_step hrest)
    next =>
      rw [endNumber_place]
      exact hafter

theorem reaches_readFraction (whole : List Char) (p : Place) : p.Reaches (readFraction whole p).2 := by
  unfold readFraction
  dsimp only
  split
  next => rfl
  next digits after hfraction =>
    have hafter : p.Reaches after := by
      split at hfraction
      next rest hrest =>
        obtain ⟨⟨found, place⟩, hdigits, h⟩ := Option.map_eq_some_iff.1 hfraction
        obtain ⟨_, rfl⟩ := by simpa using h
        exact (reaches_step hrest).trans (reaches_readDigits hdigits)
      next =>
        obtain ⟨_, rfl⟩ := by simpa using hfraction
        rfl
    split
    next => rfl
    next hexponent =>
      rw [endNumber_place]
      exact hafter.trans (reaches_readExponent hexponent)

theorem reaches_readDecimal (p : Place) : p.Reaches (readNumber.readDecimal p).2 := by
  unfold readNumber.readDecimal
  split
  next => rfl
  next digits after hdigits =>
    have hafter := reaches_readDigits hdigits
    split
    next hrest =>
      rw [endNumber_place]
      exact hafter.trans (reaches_step hrest)
    next => exact hafter.trans (reaches_readFraction _ _)

theorem reaches_readNumber (p : Place) : p.Reaches (readNumber p).2 := by
  unfold readNumber
  split
  next x rest hrest =>
    have hmark : p.Reaches ⟨rest, p.pos + 1 + x.utf8Size⟩ := (reaches_step hrest).trans (reaches_step rfl)
    dsimp only
    split
    next => exact hmark.trans (reaches_readRadix _ _ _)
    next =>
      split
      next => exact hmark.trans (reaches_readRadix _ _ _)
      next =>
        split
        next => exact hmark.trans (reaches_readRadix _ _ _)
        next =>
          split
          next =>
            have htake := reaches_takeWhile isDecimalDigit p
            split
            next =>
              rw [endNumber_place]
              exact htake
            next => exact htake.trans (reaches_readFraction _ _)
          next =>
            split
            next => rfl
            next => exact reaches_readDecimal p
  next => exact reaches_readDecimal p

/-! ### Punctuation, white space and comments -/

/-- A punctuator is as many characters of one byte as it says, and those that start with a slash are two. -/
theorem spelled_punct? {chars : List Char} {mark : Punct} (h : punct? chars = some (mark, n)) :
    (n ≤ chars.length ∧ byteLength (chars.take n) = n) ∧
      (mark = .slash ∨ mark = .slashAssign → ∃ rest, chars = '/' :: rest) := by
  unfold punct? at h
  split at h
  all_goals try split at h
  all_goals simp only [reduceCtorEq, Option.some.injEq, Prod.mk.injEq] at h
  all_goals
    obtain ⟨rfl, rfl⟩ := h
    refine ⟨⟨by simp, rfl⟩, fun hmark => ?_⟩
    first | exact ⟨_, rfl⟩ | simp at hmark

theorem byteLength_punct? {chars : List Char} {mark : Punct} (h : punct? chars = some (mark, n)) :
    n ≤ chars.length ∧ byteLength (chars.take n) = n := (spelled_punct? h).1

theorem reaches_punct? {mark : Punct} (h : punct? p.rest = some (mark, n)) :
    p.Reaches ⟨p.rest.drop n, p.pos + n⟩ := by
  obtain ⟨_, hsize⟩ := byteLength_punct? h
  exact ⟨p.rest.take n, (List.take_append_drop n p.rest).symm, by rw [hsize]⟩

theorem reaches_readBlockComment {chars comment : List Char} (h : readBlockComment chars p = some (comment, q)) :
    p.Reaches q := by
  obtain ⟨rest, pos⟩ := p
  rw [readBlockComment] at h
  fun_induction readBlockComment.go chars rest pos with
  | case1 => simp at h
  | case2 acc rest pos =>
    obtain ⟨_, rfl⟩ := by simpa using h
    exact ⟨['*', '/'], rfl, rfl⟩
  | case3 acc c rest pos _ ih => exact (reaches_step rfl).trans (ih h)

theorem reaches_skipTrivia {t t' : Trivia} (h : skipTrivia fuel t p = some (t', q)) : p.Reaches q := by
  fun_induction skipTrivia fuel t p with
  | case1 | case7 | case8 =>
    obtain ⟨_, rfl⟩ := by simpa using h
    rfl
  | case2 fuel t p rest hrest text after htake ih =>
    have htaken := reaches_takeWhile (fun c => !isLineEnd c) p
    rw [htake] at htaken
    exact htaken.trans (ih h)
  | case3 => simp at h
  | case4 fuel t p rest hrest text after hcomment ih =>
    have hopen : p.Reaches ⟨rest, p.pos + 2⟩ := ⟨['/', '*'], hrest, rfl⟩
    exact hopen.trans ((reaches_readBlockComment hcomment).trans (ih h))
  | case5 fuel t p c rest _ _ hrest _ ih => exact (reaches_step hrest).trans (ih h)
  | case6 fuel t p c rest _ _ hrest _ _ ih => exact (reaches_step hrest).trans (ih h)

/-! ### Tokens -/

theorem reaches_readKind (fuel : Nat) (p : Place) : p.Reaches (readKind fuel p).2 := by
  unfold readKind
  split
  next => rfl
  next c rest hrest =>
    have hstep := reaches_step hrest
    split
    next => exact reaches_readNumber p
    next =>
      split
      next =>
        split
        next => rfl
        next hbody => exact hstep.trans (reaches_readStringBody hbody)
      next =>
        split
        next =>
          split
          next => rfl
          next hword => exact reaches_readWordRest hword
        next =>
          split
          next => exact reaches_readNumber p
          next =>
            split
            next =>
              split
              next hword => exact hstep.trans (reaches_readWordRest hword)
              next => rfl
            next =>
              split
              next hpunct => exact reaches_punct? hpunct
              next => rfl

/-- Whether a token is a number, or text that should be one. -/
def TokenKind.isNumeric : TokenKind → Bool
  | .number _ | .bigint _ | .invalid => true
  | _ => false

theorem isNumeric_endNumber {kind : TokenKind} (h : kind.isNumeric = true) (p : Place) :
    (endNumber kind p).1.isNumeric = true := by
  unfold endNumber
  split
  next =>
    split
    next => rfl
    next => exact h
  next => exact h

theorem isNumeric_readFraction (whole : List Char) (p : Place) : (readFraction whole p).1.isNumeric = true := by
  unfold readFraction
  dsimp only
  split
  next => rfl
  next =>
    split
    next => rfl
    next => exact isNumeric_endNumber rfl _

theorem isNumeric_readRadix (mark : List Char) (base : Nat) (p : Place) :
    (readRadix mark base p).1.isNumeric = true := by
  unfold readRadix
  split
  next => rfl
  next => rfl
  next => split <;> exact isNumeric_endNumber rfl _

theorem isNumeric_readDecimal (p : Place) : (readNumber.readDecimal p).1.isNumeric = true := by
  unfold readNumber.readDecimal
  split
  next => rfl
  next =>
    split
    next => exact isNumeric_endNumber rfl _
    next => exact isNumeric_readFraction _ _

theorem isNumeric_readNumber (p : Place) : (readNumber p).1.isNumeric = true := by
  unfold readNumber
  split
  next =>
    dsimp only
    repeat' split
    any_goals exact isNumeric_readRadix _ _ _
    · exact isNumeric_endNumber rfl _
    · exact isNumeric_readFraction _ _
    · rfl
    · exact isNumeric_readDecimal _
  next => exact isNumeric_readDecimal p

/-- The text of a token that is a word is the word, or holds an escape. -/
theorem exists_of_readKind_word {w : String} {escaped : Bool} (h : readKind fuel p = (.word w escaped, q)) :
    ∃ c rest word, p.rest = c :: rest ∧ (isIdentifierStart c || c == '\x5c') = true ∧
      readWordRest fuel [] false p = some (word, escaped, q) ∧ w = String.ofList word := by
  have hnumber : readNumber p ≠ (.word w escaped, q) := fun h => by
    simpa [h, TokenKind.isNumeric] using isNumeric_readNumber p
  unfold readKind at h
  repeat' split at h
  all_goals try simp [invalidAt] at h
  all_goals try exact absurd h hnumber
  next hrest _ _ hstart _ text found after hword =>
    obtain ⟨⟨rfl, rfl⟩, rfl⟩ := h
    exact ⟨_, _, text, hrest, hstart, hword, rfl⟩

theorem passes_readKind {w : String} {escaped : Bool} (h : readKind fuel p = (.word w escaped, q)) :
    ∃ passed, p.Passes passed q ∧ (passed = w.toList ∨ '\x5c' ∈ passed) := by
  obtain ⟨c, rest, word, -, -, hword, rfl⟩ := exists_of_readKind_word h
  obtain ⟨passed, hpassed, ⟨_, htext⟩ | ⟨_, hescape⟩⟩ := passes_readWordRest hword
  · exact ⟨passed, hpassed, .inl (by simpa using htext.symm)⟩
  · exact ⟨passed, hpassed, .inr hescape⟩

/-- A token that is a punctuator stands where its characters are. -/
theorem punct?_of_readKind {mark : Punct} (h : readKind fuel p = (.punct mark, q)) :
    ∃ n, punct? p.rest = some (mark, n) := by
  have hnumber : readNumber p ≠ (.punct mark, q) := fun h => by
    simpa [h, TokenKind.isNumeric] using isNumeric_readNumber p
  unfold readKind at h
  repeat' split at h
  all_goals try simp [invalidAt] at h
  all_goals try exact absurd h hnumber
  next found n hpunct =>
    obtain ⟨rfl, _⟩ := h
    exact ⟨n, hpunct⟩

theorem readToken_places (fuel : Nat) (t : Trivia) (p : Place) :
    p.Reaches (readToken fuel t p).start ∧ (readToken fuel t p).start.Reaches (readToken fuel t p).after := by
  rw [readToken]
  split
  next => exact ⟨.refl p, .refl p⟩
  next t' start htrivia => exact ⟨reaches_skipTrivia htrivia, reaches_readKind fuel start⟩

theorem readToken_span (fuel : Nat) (t : Trivia) (p : Place) :
    (readToken fuel t p).token.span = ⟨(readToken fuel t p).start.pos, (readToken fuel t p).after.pos⟩ := by
  rw [readToken]
  split <;> rfl

theorem readToken_word {t : Trivia} {w : String} {escaped : Bool}
    (h : (readToken fuel t p).token.kind = .word w escaped) :
    ∃ passed, (readToken fuel t p).start.Passes passed (readToken fuel t p).after ∧
      (passed = w.toList ∨ '\x5c' ∈ passed) := by
  rw [readToken] at h ⊢
  split
  next htrivia => simp [htrivia] at h
  next t' start htrivia =>
    simp only [htrivia] at h
    exact passes_readKind (Prod.ext h rfl)

theorem isIdentifierName_of_readToken {t : Trivia} {w : String} {escaped : Bool}
    (h : (readToken fuel t p).token.kind = .word w escaped) : isIdentifierName w = true := by
  rw [readToken] at h
  split at h
  next => simp at h
  next t' start htrivia =>
    obtain ⟨c, rest, word, hrest, hstart, hword, rfl⟩ := exists_of_readKind_word (Prod.ext h rfl)
    exact isIdentifierName_readWord hword hrest hstart

theorem readToken_punct {t : Trivia} {mark : Punct} (h : (readToken fuel t p).token.kind = .punct mark) :
    ∃ n, punct? (readToken fuel t p).start.rest = some (mark, n) := by
  rw [readToken] at h ⊢
  split
  next htrivia => simp [htrivia] at h
  next t' start htrivia =>
    simp only [htrivia] at h
    exact punct?_of_readKind (Prod.ext h rfl)

/-! ### Regular expressions and angles -/

theorem exists_slash {chars : List Char} {mark : Punct} (h : punct? chars = some (mark, n))
    (hmark : mark = .slash ∨ mark = .slashAssign) : ∃ rest, chars = '/' :: rest := (spelled_punct? h).2 hmark

theorem reaches_regexRest {acc chars rest : List Char} {inClass escaped : Bool} {pos : Nat}
    (h : Grammar.readRegexBody.go acc inClass escaped rest pos = some (chars, q)) :
    (Place.mk rest pos).Reaches q := by
  fun_induction Grammar.readRegexBody.go acc inClass escaped rest pos with
  | case1 | case2 => simp at h
  | case7 =>
    obtain ⟨_, rfl⟩ := by simpa using h
    exact reaches_step rfl
  | case3 | case4 | case5 | case6 | case8 =>
    rename_i ih
    exact (reaches_step rfl).trans (ih h)

theorem reaches_readRegexBody {chars : List Char} (h : Grammar.readRegexBody p = some (chars, q)) : p.Reaches q :=
  reaches_regexRest h

theorem reaches_angleRun (p : Place) : p.Reaches (p.skip (Grammar.angleRun p.rest).2.1) := by
  unfold Grammar.angleRun
  split
  next hrest => exact reaches_skip ['>', '>', '='] hrest rfl
  next hrest => exact reaches_skip ['>', '>'] hrest rfl
  next hrest => exact reaches_skip ['>', '='] hrest rfl
  next hrest => exact reaches_skip ['>'] hrest rfl
  next hrest => exact reaches_skip ['='] hrest rfl
  next => exact reaches_skip [] rfl rfl

end LiveNotes.Script
