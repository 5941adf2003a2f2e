import LiveNotes.Fragment.Scan
import LiveNotes.Proofs.Vault.Path
import Mathlib.Data.List.TakeWhile

/-! Lines of a document and fences among them, by the text they stand in. What follows a line is nothing or a
line feed; the clamped cursor is on the lines of a piece of text made of whole lines exactly when it is not in
front of the piece and not behind it. -/

namespace LiveNotes.Document

open Text

variable {before line rest text piece cs left right : List Char} {start offset : Nat} {c : Char}

/-- What follows a line: nothing, or a line feed and what is behind it. -/
def Breaks (rest : List Char) : Prop := rest = [] ∨ ∃ more, rest = '\n' :: more

/-- What stands in front of a line: nothing, or a text that ends in a line feed. -/
def Begins (before : List Char) : Prop := before = [] ∨ ∃ front, before = front ++ ['\n']

/-- The lines of a text that starts at byte `start`. -/
def linesFrom (start : Nat) (text : List Char) : List Line := placeLines start (splitChar '\n' text)

@[simp] theorem linesFrom_nil (start : Nat) : linesFrom start [] = [] := rfl

theorem linesFrom_append (hline : '\n' ∉ line) (hrest : Breaks rest) (hne : line ++ rest ≠ []) :
    linesFrom start (line ++ rest) =
      ⟨start, dropReturn line⟩ :: linesFrom (start + byteLength line + 1) rest.tail := by
  unfold linesFrom
  rcases hrest with rfl | ⟨more, rfl⟩
  · rw [List.append_nil] at hne ⊢
    rw [splitChar_of_not_mem hline]
    simp only [placeLines, List.isEmpty_iff, if_neg hne]
    rfl
  · obtain ⟨p, ps, hps⟩ := List.exists_cons_of_ne_nil (splitChar_ne_nil '\n' more)
    rw [splitChar_append hline, hps, List.tail_cons, hps]
    rfl

/-- A text is a line and what follows it. -/
theorem exists_line (text : List Char) :
    ∃ line rest, text = line ++ rest ∧ '\n' ∉ line ∧ Breaks rest := by
  induction text with
  | nil => exact ⟨[], [], rfl, List.not_mem_nil, Or.inl rfl⟩
  | cons c text ih =>
    by_cases hc : c = '\n'
    · exact ⟨[], c :: text, rfl, List.not_mem_nil, Or.inr ⟨text, by rw [hc]⟩⟩
    · obtain ⟨line, rest, rfl, hline, hrest⟩ := ih
      refine ⟨c :: line, rest, rfl, ?_, hrest⟩
      exact fun hmem => (List.mem_cons.1 hmem).elim (Ne.symm hc) hline

theorem exists_dropReturn (line : List Char) :
    ∃ ret, line = dropReturn line ++ ret ∧ (ret = [] ∨ ret = ['\x0d']) := by
  unfold dropReturn
  split
  · next h =>
    obtain ⟨front, hfront⟩ := List.getLast?_eq_some_iff.1 h
    refine ⟨['\x0d'], ?_, Or.inr rfl⟩
    rw [hfront, List.dropLast_concat]
  · exact ⟨[], (List.append_nil line).symm, Or.inl rfl⟩

/-! ### The line of the cursor -/

theorem prefix_of_splitAtByte (h : offset ≤ byteLength left) (right : List Char) :
    (splitAtByte offset (left ++ right)).1 <+: left := by
  induction left generalizing offset with
  | nil =>
    obtain rfl : offset = 0 := Nat.le_zero.1 h
    have hnone : (splitAtByte 0 ([] ++ right)).1 = [] := by rw [splitAtByte]
    exact hnone.symm ▸ List.nil_prefix
  | cons c left ih =>
    cases offset with
    | zero => exact List.nil_prefix
    | succ n =>
      rw [List.cons_append, splitAtByte]
      refine List.cons_prefix_cons.2 ⟨rfl, ih ?_⟩
      simp only [byteLength] at h
      omega

theorem prefix_splitAtByte (h : byteLength left ≤ offset) (right : List Char) :
    left <+: (splitAtByte offset (left ++ right)).1 := by
  induction left generalizing offset with
  | nil => exact List.nil_prefix
  | cons c left ih =>
    simp only [byteLength] at h
    have hc := Char.utf8Size_pos c
    obtain ⟨n, rfl⟩ : ∃ n, offset = n + 1 := ⟨offset - 1, by omega⟩
    rw [List.cons_append, splitAtByte]
    exact List.cons_prefix_cons.2 ⟨rfl, ih (by omega)⟩

theorem lineAt_le (h : offset ≤ byteLength left) (right : List Char) :
    lineAt (left ++ right) offset ≤ left.count '\n' :=
  (prefix_of_splitAtByte h right).sublist.count_le '\n'

theorem le_lineAt (h : byteLength left ≤ offset) (right : List Char) :
    left.count '\n' ≤ lineAt (left ++ right) offset :=
  (prefix_splitAtByte h right).sublist.count_le '\n'

theorem byteLength_lineFeed : byteLength ['\n'] = 1 := rfl

theorem byteLength_pos (h : cs ≠ []) : 0 < byteLength cs := by
  obtain ⟨c, cs, rfl⟩ := List.exists_cons_of_ne_nil h
  exact Nat.add_pos_left (Char.utf8Size_pos c) _

theorem count_lineFeed (cs : List Char) : (cs ++ ['\n']).count '\n' = cs.count '\n' + 1 := by
  rw [List.count_append]
  rfl

/-- The clamped cursor is in a piece of the text or at one of its ends. -/
def Inside (cursor : Option Nat) (text before piece : List Char) : Prop :=
  ∃ offset, cursor = some offset ∧ byteLength before ≤ min offset (byteLength text) ∧
    min offset (byteLength text) ≤ byteLength (before ++ piece)

theorem count_le_lineAt_iff (offset : Nat) (more : List Char) (hbefore : Begins before) :
    before.count '\n' ≤ lineAt (before ++ more) offset ↔ byteLength before ≤ offset := by
  refine ⟨fun hle => ?_, fun hle => le_lineAt hle more⟩
  by_contra hlt
  rcases hbefore with rfl | ⟨front, rfl⟩
  · exact hlt (Nat.zero_le _)
  · -- a cursor in front of the last line feed has fewer line feeds before it
    rw [byteLength_append, byteLength_lineFeed] at hlt
    have hfront : lineAt (front ++ (['\n'] ++ more)) offset ≤ front.count '\n' := lineAt_le (by omega) _
    rw [count_lineFeed, List.append_assoc] at hle
    omega

theorem lineAt_le_count_iff (offset : Nat) (front : List Char) (hrest : Breaks rest) :
    lineAt (front ++ rest) offset ≤ front.count '\n' ↔
      min offset (byteLength (front ++ rest)) ≤ byteLength front := by
  rcases hrest with rfl | ⟨more, rfl⟩
  · rw [List.append_nil]
    have hall : (splitAtByte offset front).1 <+: front := ⟨_, splitAtByte_append offset front⟩
    exact ⟨fun _ => Nat.min_le_right .., fun _ => hall.sublist.count_le '\n'⟩
  · have hsize : byteLength front < byteLength (front ++ '\n' :: more) := by
      simp only [byteLength_append, byteLength]
      have := Char.utf8Size_pos '\n'
      omega
    constructor
    · intro hle
      by_contra hlt
      -- behind the line feed the cursor is on a later line
      have hpassed : byteLength (front ++ ['\n']) ≤ offset := by
        rw [byteLength_append, byteLength_lineFeed]
        omega
      have hnext := le_lineAt hpassed more
      rw [count_lineFeed, List.append_assoc, List.singleton_append] at hnext
      omega
    · intro hle
      exact lineAt_le (by omega) _

/-- The line of a cursor is one of the lines of a piece of text exactly when the cursor is in the piece. -/
theorem lineAt_mem_iff (offset : Nat) (piece : List Char) (hbefore : Begins before) (hrest : Breaks rest) :
    (before.count '\n' ≤ lineAt (before ++ piece ++ rest) offset ∧
        lineAt (before ++ piece ++ rest) offset ≤ (before ++ piece).count '\n') ↔
      byteLength before ≤ min offset (byteLength (before ++ piece ++ rest)) ∧
        min offset (byteLength (before ++ piece ++ rest)) ≤ byteLength (before ++ piece) := by
  have hlow : before.count '\n' ≤ lineAt (before ++ piece ++ rest) offset ↔ byteLength before ≤ offset := by
    rw [List.append_assoc]
    exact count_le_lineAt_iff offset _ hbefore
  have hsize : byteLength before ≤ byteLength (before ++ piece ++ rest) := by
    rw [List.append_assoc, byteLength_append]
    exact Nat.le_add_right _ _
  rw [hlow, lineAt_le_count_iff offset _ hrest, Nat.le_min, and_iff_left hsize]

/-! ### Fences -/

/-- A line opens a block: at most three blanks, a run of at least three marks, and an info text behind it,
without backticks behind backticks. -/
structure Fence.Opens (f : Fence) (line : List Char) : Prop where
  mark : f.mark = backtick ∨ f.mark = '~'
  width : 3 ≤ f.width
  parts : ∃ indent tail, indent ≤ 3 ∧ line = List.replicate indent ' ' ++ List.replicate f.width f.mark ++ tail ∧
    tail.head? ≠ some f.mark ∧ (f.mark = backtick → backtick ∉ tail) ∧ f.info = trimBoth isWhiteSpace tail

/-- A line closes the block of a fence: white space around a run of marks that is not shorter. -/
def Fence.Closes (f : Fence) (line : List Char) : Prop :=
  ∃ lead n tail, line = lead ++ List.replicate n f.mark ++ tail ∧ f.width ≤ n ∧
    (∀ c ∈ lead, isWhiteSpace c = true) ∧ ∀ c ∈ tail, isWhiteSpace c = true

theorem exists_trimBoth (p : Char → Bool) (cs : List Char) :
    ∃ lead tail, cs = lead ++ trimBoth p cs ++ tail ∧ (∀ c ∈ lead, p c = true) ∧ ∀ c ∈ tail, p c = true := by
  refine ⟨cs.takeWhile p, ((cs.dropWhile p).reverse.takeWhile p).reverse, ?_, ?_, ?_⟩
  · unfold trimBoth dropEnd
    rw [List.append_assoc, ← List.reverse_append, List.takeWhile_append_dropWhile, List.reverse_reverse,
      List.takeWhile_append_dropWhile]
  · exact fun c hc => List.mem_takeWhile_imp hc
  · exact fun c hc => List.mem_takeWhile_imp (List.mem_reverse.1 hc)

theorem trimBoth_append {p : Char → Bool} {lead cs tail : List Char} (hlead : ∀ c ∈ lead, p c = true)
    (htail : ∀ c ∈ tail, p c = true) (hcs : ∀ c ∈ cs, p c = false) (hne : cs ≠ []) :
    trimBoth p (lead ++ cs ++ tail) = cs := by
  obtain ⟨c, more, rfl⟩ := List.exists_cons_of_ne_nil hne
  have hfront : (lead ++ c :: more ++ tail).dropWhile p = c :: more ++ tail := by
    rw [List.append_assoc, List.dropWhile_append_of_pos hlead, List.cons_append,
      List.dropWhile_cons_of_neg (by simp [hcs c List.mem_cons_self])]
  have hback : dropEnd p (c :: more ++ tail) = dropEnd p (c :: more) := by
    unfold dropEnd
    rw [List.reverse_append, List.dropWhile_append_of_pos fun c hc => htail c (List.mem_reverse.1 hc)]
  rw [trimBoth, hfront, hback]
  exact dropEnd_of_getLast? fun d hd => hcs d (List.mem_of_getLast? hd)

theorem Fence.closedBy_iff {f : Fence} (hmark : f.mark = backtick ∨ f.mark = '~') (hwidth : 0 < f.width)
    (line : List Char) : f.closedBy line = true ↔ f.Closes line := by
  have hblank : isWhiteSpace f.mark = false := by
    rcases hmark with h | h <;> rw [h] <;> decide
  unfold Fence.closedBy Fence.Closes
  simp only [Bool.and_eq_true, decide_eq_true_eq, List.all_eq_true, beq_iff_eq]
  constructor
  · rintro ⟨hlong, hall⟩
    obtain ⟨lead, tail, hline, hlead, htail⟩ := exists_trimBoth isWhiteSpace line
    refine ⟨lead, (trimBoth isWhiteSpace line).length, tail, ?_, hlong, hlead, htail⟩
    rwa [← List.eq_replicate_iff.2 ⟨rfl, hall⟩]
  · rintro ⟨lead, n, tail, rfl, hlong, hlead, htail⟩
    have hne : List.replicate n f.mark ≠ [] := by
      rw [Ne, List.replicate_eq_nil_iff]
      omega
    rw [trimBoth_append hlead htail (fun c hc => by rwa [List.eq_of_mem_replicate hc]) hne]
    exact ⟨by rwa [List.length_replicate], fun c hc => List.eq_of_mem_replicate hc⟩

section

variable {m : Char} {n : Nat} {tail : List Char}

theorem exists_run (m : Char) (cs : List Char) :
    ∃ n tail, cs = List.replicate n m ++ tail ∧ tail.head? ≠ some m := by
  refine ⟨(cs.takeWhile (· == m)).length, cs.dropWhile (· == m), ?_, ?_⟩
  · have hrun : cs.takeWhile (· == m) = List.replicate (cs.takeWhile (· == m)).length m :=
      List.eq_replicate_iff.2 ⟨rfl, fun c hc => beq_iff_eq.1 (List.mem_takeWhile_imp (p := (· == m)) hc)⟩
    rw [← hrun, List.takeWhile_append_dropWhile]
  · intro hhead
    have hnot := List.head?_dropWhile_not (· == m) cs
    rw [hhead] at hnot
    simp at hnot

theorem dropWhile_run (h : tail.head? ≠ some m) : (List.replicate n m ++ tail).dropWhile (· == m) = tail := by
  rw [List.dropWhile_append_of_pos fun c hc => beq_iff_eq.2 (List.eq_of_mem_replicate hc)]
  cases tail with
  | nil => rfl
  | cons c tail => exact List.dropWhile_cons_of_neg fun hc => h (congrArg some (beq_iff_eq.1 hc))

theorem takeWhile_run (h : tail.head? ≠ some m) :
    (List.replicate n m ++ tail).takeWhile (· == m) = List.replicate n m := by
  have hall := List.takeWhile_append_dropWhile (p := (· == m)) (l := List.replicate n m ++ tail)
  rw [dropWhile_run h] at hall
  exact List.append_cancel_right hall

theorem run_inj {n' : Nat} {tail' : List Char} (h : tail.head? ≠ some m) (h' : tail'.head? ≠ some m)
    (heq : List.replicate n m ++ tail = List.replicate n' m ++ tail') : n = n' ∧ tail = tail' := by
  have htake := takeWhile_run (n := n) h
  have hdrop := dropWhile_run (n := n) h
  rw [heq, takeWhile_run h'] at htake
  rw [heq, dropWhile_run h'] at hdrop
  exact ⟨by simpa using congrArg List.length htake.symm, hdrop.symm⟩

theorem fence?_run {indent width : Nat} (hblank : m ≠ ' ') (hwidth : 0 < width) (h : tail.head? ≠ some m) :
    fence? (List.replicate indent ' ' ++ List.replicate width m ++ tail) =
      if 3 < indent ∨ ¬ (m = backtick ∨ m = '~') ∨ width < 3 ∨ m = backtick ∧ backtick ∈ trimBoth isWhiteSpace tail
      then none else some ⟨m, width, trimBoth isWhiteSpace tail⟩ := by
  obtain ⟨k, rfl⟩ : ∃ k, width = k + 1 := ⟨width - 1, by omega⟩
  have hrest : (List.replicate indent ' ' ++ List.replicate (k + 1) m ++ tail).dropWhile (· == ' ') =
      m :: (List.replicate k m ++ tail) := by
    rw [List.append_assoc]
    exact dropWhile_run (by simpa [List.replicate_succ] using hblank)
  have hlength : (List.replicate indent ' ' ++ List.replicate (k + 1) m ++ tail).length -
      (m :: (List.replicate k m ++ tail)).length = indent := by
    simp only [List.length_append, List.length_replicate, List.length_cons]
    omega
  have htake : (m :: (List.replicate k m ++ tail)).takeWhile (· == m) = List.replicate (k + 1) m :=
    takeWhile_run (n := k + 1) h
  have hdrop : (m :: (List.replicate k m ++ tail)).dropWhile (· == m) = tail := dropWhile_run (n := k + 1) h
  unfold fence?
  simp only [hrest, hlength, htake, hdrop, List.length_replicate]
  grind

end

theorem mem_trimBoth_iff {p : Char → Bool} (hc : p c = false) (cs : List Char) : c ∈ trimBoth p cs ↔ c ∈ cs := by
  obtain ⟨lead, tail, hcs, hlead, htail⟩ := exists_trimBoth p cs
  have hleads : c ∉ lead := fun h => by simp [hlead c h] at hc
  have htails : c ∉ tail := fun h => by simp [htail c h] at hc
  conv_rhs => rw [hcs]
  simp only [List.mem_append, hleads, htails, false_or, or_false]

/-- A line opens the block of a fence exactly when the fence is found. -/
theorem fence?_eq_some_iff {f : Fence} (line : List Char) : fence? line = some f ↔ f.Opens line := by
  have hmem : ∀ tail, backtick ∈ trimBoth isWhiteSpace tail ↔ backtick ∈ tail := mem_trimBoth_iff (by decide)
  constructor
  · intro h
    obtain ⟨indent, rest, rfl, hrest⟩ := exists_run ' ' line
    cases rest with
    | nil =>
      rw [fence?, dropWhile_run hrest] at h
      contradiction
    | cons m rest =>
      obtain ⟨n, tail, hrun, htail⟩ := exists_run m rest
      have hblank : m ≠ ' ' := fun hm => hrest (by rw [hm]; rfl)
      have hparts : m :: rest = List.replicate (n + 1) m ++ tail := by
        rw [hrun, List.replicate_succ, List.cons_append]
      rw [hparts, ← List.append_assoc, fence?_run hblank (Nat.succ_pos n) htail, ite_eq_iff] at h
      rcases h with ⟨-, h⟩ | ⟨hcond, h⟩
      · contradiction
      · obtain rfl := Option.some.inj h
        rw [hmem] at hcond
        push Not at hcond
        obtain ⟨hindent, hmark, hwidth, hinfo⟩ := hcond
        refine ⟨hmark, hwidth, indent, tail, hindent, ?_, htail, hinfo, rfl⟩
        rw [hparts, List.append_assoc]
  · rintro ⟨hmark, hwidth, indent, tail, hindent, rfl, htail, hticks, hinfo⟩
    have hblank : f.mark ≠ ' ' := by
      rcases hmark with h | h <;> rw [h] <;> decide
    rw [fence?_run hblank (by omega) htail, if_neg, ← hinfo]
    rw [hmem]
    rintro (h | h | h | ⟨h, hin⟩)
    · omega
    · exact h hmark
    · omega
    · exact hticks h hin

theorem fence?_eq_none_iff (line : List Char) : fence? line = none ↔ ∀ f : Fence, ¬ f.Opens line := by
  rw [Option.eq_none_iff_forall_ne_some]
  exact forall_congr' fun f => not_congr (fence?_eq_some_iff line)

end LiveNotes.Document
