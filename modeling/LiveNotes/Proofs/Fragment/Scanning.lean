import LiveNotes.Proofs.Fragment.Spans

/-! Which fragments a document has. Its lines fall into blocks, each from a fence to the first line that closes
it, and lines outside of them; behind a fence that no line closes there is nothing. The fragments are the
blocks and the code spans outside of blocks whose first word names a kind, in order and apart. -/

namespace LiveNotes.Document

open Text

variable {before line rest text closing cs : List Char} {inner : List (List Char)} {f : Fence} {c : Option Nat}
  {n start : Nat}

/-! ### Blocks and what is outside of them -/

/-- Lines from a fence to the first line that closes it. -/
structure ClosedBlock (f : Fence) (opening : List Char) (inner : List (List Char)) (closing : List Char) :
    Prop where
  first : '\n' ∉ opening
  between : ∀ line ∈ inner, '\n' ∉ line
  last : '\n' ∉ closing
  opens : f.Opens (dropReturn opening)
  inside : ∀ line ∈ inner, ¬ f.Closes (dropReturn line)
  closes : f.Closes (dropReturn closing)

def blockText (opening : List Char) (inner : List (List Char)) (closing : List Char) : List Char :=
  joinWith ['\n'] (opening :: (inner ++ [closing]))

/-- A text of whole lines after which no block is open. -/
inductive Outside : List Char → Prop
  | start : Outside []
  | line {before line : List Char} : Outside before → '\n' ∉ line → (∀ f : Fence, ¬ f.Opens (dropReturn line)) →
      Outside (before ++ line ++ ['\n'])
  | block {before opening closing : List Char} {inner : List (List Char)} {f : Fence} : Outside before →
      ClosedBlock f opening inner closing → Outside (before ++ blockText opening inner closing ++ ['\n'])

/-- A line outside of all blocks that opens none. -/
structure PlainLine (text before line rest : List Char) : Prop where
  whole : text = before ++ line ++ rest
  outside : Outside before
  single : '\n' ∉ line
  ends : Breaks rest
  unfenced : ∀ f : Fence, ¬ f.Opens (dropReturn line)

/-- A fragment is a code span of a line, its prefix and its content between equal runs of backticks. -/
structure IsSpan (text : List Char) (cursor : Option Nat) (f : Fragment) (before line lead : List Char) (w : Nat)
    (inner tail rest : List Char) : Prop where
  plain : PlainLine text before line rest
  parts : dropReturn line = lead ++ spanText w inner ++ tail
  free : Free lead (spanText w inner ++ tail)
  encloses : Encloses w inner tail
  kind : f.kind = .inlineExpression ∧ inner = "ldjs:".toList ++ f.content.toList ∨
    f.kind = .inlineMarkup ∧ inner = "ldjsx:".toList ++ f.content.toList
  component : f.component = none
  start : f.start = byteLength (before ++ lead)
  stop : f.stop = byteLength (before ++ lead ++ spanText w inner)
  cursor : f.cursorInside = true ↔ Inside cursor text before line

/-- A fragment is a block, its content the lines between the fence and the line that closes it. -/
structure IsBlock (text : List Char) (cursor : Option Nat) (f : Fragment) (fence : Fence)
    (before opening : List Char) (inner : List (List Char)) (closing rest : List Char) : Prop where
  whole : text = before ++ blockText opening inner closing ++ rest
  outside : Outside before
  ends : Breaks rest
  closed : ClosedBlock fence opening inner closing
  kind : blockKind? fence.info = some (f.kind, f.component)
  content : f.content = String.ofList (joinWith ['\n'] (inner.map dropReturn))
  start : f.start = byteLength before
  stop : f.stop = byteLength (before ++ blockText opening inner (dropReturn closing))
  cursor : f.cursorInside = true ↔ Inside cursor text before (blockText opening inner closing)

/-- The fragments of a text in order: pieces of it that are apart, each a code span outside of all blocks or a
block, and all of these. -/
structure IsScan (text : List Char) (cursor : Option Nat) (fragments : List Fragment) : Prop where
  inOrder : fragments.Pairwise fun f g => f.stop ≤ g.start
  inText : ∀ f ∈ fragments, ∃ before code rest, text = before ++ code ++ rest ∧ code ≠ [] ∧
    f.start = byteLength before ∧ f.stop = byteLength (before ++ code)
  mem_iff : ∀ f, f ∈ fragments ↔
    (∃ before line lead w inner tail rest, IsSpan text cursor f before line lead w inner tail rest) ∨
      ∃ fence before opening inner closing rest, IsBlock text cursor f fence before opening inner closing rest

/-! ### Lines that are read -/

theorem joinWith_cons {sep : List Char} {pieces : List (List Char)} (piece : List Char) (h : pieces ≠ []) :
    joinWith sep (piece :: pieces) = piece ++ (sep ++ joinWith sep pieces) := by
  rw [joinWith, List.append_assoc]
  exact h

/-- The text of lines up to one that closes a block. -/
def upTo (inner : List (List Char)) (closing : List Char) : List Char := joinWith ['\n'] (inner ++ [closing])

theorem upTo_nil (closing : List Char) : upTo [] closing = closing := rfl

theorem upTo_cons (line : List Char) (inner : List (List Char)) (closing : List Char) :
    upTo (line :: inner) closing = line ++ '\n' :: upTo inner closing :=
  joinWith_cons line (List.append_ne_nil_of_right_ne_nil inner (List.cons_ne_nil closing []))

theorem blockText_eq (opening : List Char) (inner : List (List Char)) (closing : List Char) :
    blockText opening inner closing = opening ++ '\n' :: upTo inner closing :=
  upTo_cons opening inner closing

theorem count_upTo (hinner : ∀ line ∈ inner, '\n' ∉ line) (hclosing : '\n' ∉ closing) :
    (upTo inner closing).count '\n' = inner.length := by
  induction inner with
  | nil => exact List.count_eq_zero.2 hclosing
  | cons line inner ih =>
    have hline := List.count_eq_zero.2 (hinner line List.mem_cons_self)
    rw [upTo_cons, List.count_append, List.count_cons_self, hline,
      ih fun l hl => hinner l (List.mem_cons_of_mem line hl), List.length_cons]
    omega

theorem Fence.ne_nil_of_closedBy (hwidth : 0 < f.width) (h : f.closedBy line = true) : line ≠ [] := by
  rintro rfl
  unfold Fence.closedBy at h
  simp only [Bool.and_eq_true, decide_eq_true_eq] at h
  exact absurd h.1 (Nat.not_le_of_lt hwidth)

theorem ne_nil_of_dropReturn (h : dropReturn line ≠ []) : line ≠ [] := by
  rintro rfl
  exact h rfl

/-- Either no line of a text closes a block, or there is a first one. -/
theorem exists_upTo (f : Fence) (cs : List Char) :
    (∀ start, ∀ l ∈ linesFrom start cs, f.closedBy l.text = false) ∨
      ∃ inner closing rest, cs = upTo inner closing ++ rest ∧ (∀ line ∈ inner, '\n' ∉ line) ∧ '\n' ∉ closing ∧
        Breaks rest ∧ (∀ line ∈ inner, f.closedBy (dropReturn line) = false) ∧
        f.closedBy (dropReturn closing) = true := by
  -- a step reads a line, so the induction is on the length of what is left
  induction hlen : cs.length using Nat.strongRecOn generalizing cs with
  | ind size ih =>
    obtain ⟨line, rest, rfl, hline, hrest⟩ := exists_line cs
    by_cases hne : line ++ rest = []
    · rw [hne]
      exact Or.inl fun start l hl => absurd hl List.not_mem_nil
    · cases hclosed : f.closedBy (dropReturn line) with
      | true => exact Or.inr ⟨[], line, rest, rfl, nofun, hline, hrest, nofun, hclosed⟩
      | false =>
        rcases hrest with rfl | ⟨more, rfl⟩
        · refine Or.inl fun start l hl => ?_
          rw [linesFrom_append hline (Or.inl rfl) hne, List.tail_nil, linesFrom_nil] at hl
          rwa [List.mem_singleton.1 hl]
        · rcases ih more.length (by simp [← hlen]; omega) more rfl with hnone | ⟨inner, closing, rest, rfl, hinner, hlast,
            hrest, hinside, hcloses⟩
          · refine Or.inl fun start l hl => ?_
            rw [linesFrom_append hline (Or.inr ⟨more, rfl⟩) hne] at hl
            rcases List.mem_cons.1 hl with rfl | hl
            · exact hclosed
            · exact hnone _ l hl
          · refine Or.inr ⟨line :: inner, closing, rest, ?_, List.forall_mem_cons.2 ⟨hline, hinner⟩, hlast, hrest,
              List.forall_mem_cons.2 ⟨hclosed, hinside⟩, hcloses⟩
            rw [upTo_cons, List.append_assoc, List.cons_append]

/-! ### Steps of the scanner -/

/-- The fragments in what follows a text of whole lines. -/
def scanFrom (c : Option Nat) (before cs : List Char) : List Fragment :=
  scanLines c none (before.count '\n') (linesFrom (byteLength before) cs)

/-- The fragments behind a line break that follows a text. -/
def scanBehind (c : Option Nat) (before : List Char) : List Char → List Fragment
  | [] => []
  | _ :: rest => scanFrom c (before ++ ['\n']) rest

/-- The fragment of a block, when its fence names a kind. -/
def blockFragment (info : List Char) (start stop : Nat) (content : List (List Char)) (hasCursor : Bool) :
    List Fragment :=
  match blockKind? info with
  | some (kind, component) => [⟨kind, start, stop, String.ofList (joinWith ['\n'] content), component, hasCursor⟩]
  | none => []

@[simp] theorem scanFrom_nil (c : Option Nat) (before : List Char) : scanFrom c before [] = [] := rfl

theorem scanLines_behind (hrest : Breaks rest) :
    scanLines c none (before.count '\n' + 1) (linesFrom (byteLength before + 1) rest.tail) =
      scanBehind c before rest := by
  rcases hrest with rfl | ⟨more, rfl⟩
  · rfl
  · rw [scanBehind, scanFrom, count_lineFeed, byteLength_append, byteLength_lineFeed, List.tail_cons]

theorem scanFrom_line (hline : '\n' ∉ line) (hrest : Breaks rest) (hne : line ++ rest ≠ [])
    (hfence : ∀ f : Fence, ¬ f.Opens (dropReturn line)) :
    scanFrom c before (line ++ rest) =
      inlineFragments ⟨byteLength before, dropReturn line⟩ (c == some (before.count '\n')) ++
        scanBehind c (before ++ line) rest := by
  have hnone := (fence?_eq_none_iff (dropReturn line)).2 hfence
  have hcount : (before ++ line).count '\n' = before.count '\n' := by
    rw [List.count_append, List.count_eq_zero.2 hline, Nat.add_zero]
  rw [scanFrom, linesFrom_append hline hrest hne, scanLines, hnone, ← scanLines_behind hrest, hcount,
    byteLength_append]

/-- Whether the line of the cursor is one of those from number `first` to number `last`. -/
def among (c : Option Nat) (first last : Nat) : Bool := c.any fun k => first ≤ k && k ≤ last

theorem among_self (c : Option Nat) (n : Nat) : among c n n = (c == some n) := by
  cases c with
  | none => rfl
  | some k =>
    rw [Bool.eq_iff_iff]
    simp only [among, Option.any_some, Bool.and_eq_true, decide_eq_true_eq, beq_iff_eq, Option.some.injEq]
    omega

theorem among_succ {first last : Nat} (h : first ≤ last) :
    ((c == some first) || among c (first + 1) last) = among c first last := by
  cases c with
  | none => rfl
  | some k =>
    rw [Bool.eq_iff_iff]
    simp only [among, Option.any_some, Bool.or_eq_true, Bool.and_eq_true, decide_eq_true_eq, beq_iff_eq,
      Option.some.injEq]
    omega

theorem OpenBlock.close_eq (b : OpenBlock) (l : Line) (hasCursor : Bool) : b.close l hasCursor =
    blockFragment b.fence.info b.start l.stop b.content.reverse (b.hasCursor || hasCursor) := rfl

/-- What a block that is open becomes when its first closing line is read. -/
theorem scanLines_upTo {b : OpenBlock} (hwidth : 0 < b.fence.width) (hinner : ∀ line ∈ inner, '\n' ∉ line)
    (hlast : '\n' ∉ closing) (hrest : Breaks rest)
    (hinside : ∀ line ∈ inner, b.fence.closedBy (dropReturn line) = false)
    (hcloses : b.fence.closedBy (dropReturn closing) = true) :
    scanLines c (some b) n (linesFrom start (upTo inner closing ++ rest)) =
      blockFragment b.fence.info b.start (start + byteLength (upTo inner (dropReturn closing)))
          (b.content.reverse ++ inner.map dropReturn) (b.hasCursor || among c n (n + inner.length)) ++
        scanLines c none (n + inner.length + 1)
          (linesFrom (start + byteLength (upTo inner closing) + 1) rest.tail) := by
  induction inner generalizing b n start with
  | nil =>
    have hne : closing ++ rest ≠ [] := List.append_ne_nil_of_left_ne_nil
      (ne_nil_of_dropReturn (Fence.ne_nil_of_closedBy hwidth hcloses)) rest
    rw [upTo_nil, upTo_nil, linesFrom_append hlast hrest hne, scanLines, if_pos hcloses, OpenBlock.close_eq,
      List.map_nil, List.append_nil, ← among_self c n]
    rfl
  | cons line inner ih =>
    obtain ⟨hline, hinner⟩ := List.forall_mem_cons.1 hinner
    obtain ⟨hopen, hinside⟩ := List.forall_mem_cons.1 hinside
    have htext : upTo (line :: inner) closing ++ rest = line ++ '\n' :: (upTo inner closing ++ rest) := by
      rw [upTo_cons, List.append_assoc, List.cons_append]
    have hlength : ∀ last, byteLength (upTo (line :: inner) last) = byteLength line + 1 + byteLength (upTo inner last) := by
      intro last
      rw [upTo_cons, List.append_cons, byteLength_append, byteLength_append, byteLength_lineFeed]
    have hnext := @ih (n + 1) (start + byteLength line + 1)
      { b with hasCursor := b.hasCursor || c == some n, content := dropReturn line :: b.content }
      hwidth hinner hinside hcloses
    rw [htext, linesFrom_append hline (Or.inr ⟨_, rfl⟩) (by simp), scanLines, if_neg (by simp [hopen]), List.tail_cons,
      hnext, hlength, hlength, ← among_succ (by simp : n ≤ n + (line :: inner).length), List.length_cons,
      List.reverse_cons, List.append_assoc, List.map_cons, Bool.or_assoc]
    simp only [List.singleton_append, Nat.add_assoc, Nat.add_comm, Nat.add_left_comm]

theorem Fence.Opens.width_pos (h : f.Opens line) : 0 < f.width := Nat.lt_of_lt_of_le (by decide) h.width

theorem Fence.Opens.closedBy_iff (h : f.Opens line) (l : List Char) : f.closedBy l = true ↔ f.Closes l :=
  Fence.closedBy_iff h.mark h.width_pos l

theorem Fence.Opens.closedBy_eq_false_iff (h : f.Opens line) (l : List Char) :
    f.closedBy l = false ↔ ¬ f.Closes l := by
  rw [← h.closedBy_iff, Bool.not_eq_true]

theorem scanFrom_block {opening : List Char} (h : ClosedBlock f opening inner closing) (hrest : Breaks rest) :
    scanFrom c before (blockText opening inner closing ++ rest) =
      blockFragment f.info (byteLength before) (byteLength (before ++ blockText opening inner (dropReturn closing)))
          (inner.map dropReturn)
          (among c (before.count '\n') ((before ++ blockText opening inner closing).count '\n')) ++
        scanBehind c (before ++ blockText opening inner closing) rest := by
  have hinside : ∀ line ∈ inner, f.closedBy (dropReturn line) = false := fun line hl =>
    (h.opens.closedBy_eq_false_iff _).2 (h.inside line hl)
  have hcount : (before ++ blockText opening inner closing).count '\n' = before.count '\n' + 1 + inner.length := by
    rw [blockText_eq, List.count_append, List.count_append, List.count_cons_self, List.count_eq_zero.2 h.first,
      count_upTo h.between h.last]
    omega
  have hlength : ∀ last, byteLength (before ++ blockText opening inner last) =
      byteLength before + byteLength opening + 1 + byteLength (upTo inner last) := by
    intro last
    rw [blockText_eq, List.append_cons, byteLength_append, byteLength_append, byteLength_append, byteLength_lineFeed]
    omega
  have hopened : scanFrom c before (blockText opening inner closing ++ rest) =
      scanLines c (some ⟨f, byteLength before, c == some (before.count '\n'), []⟩) (before.count '\n' + 1)
        (linesFrom (byteLength before + byteLength opening + 1) (upTo inner closing ++ rest)) := by
    rw [blockText_eq, List.append_assoc, List.cons_append, scanFrom,
      linesFrom_append h.first (Or.inr ⟨_, rfl⟩) (by simp), scanLines, (fence?_eq_some_iff _).2 h.opens]
    rfl
  rw [hopened, scanLines_upTo h.opens.width_pos h.between h.last hrest hinside ((h.opens.closedBy_iff _).2 h.closes),
    ← hlength, ← hlength, ← scanLines_behind hrest, hcount,
    ← among_succ (Nat.le_add_right_of_le (Nat.le_succ (before.count '\n')))]
  rfl

theorem scanLines_unclosed {b : OpenBlock} {ls : List Line} (h : ∀ l ∈ ls, b.fence.closedBy l.text = false) :
    scanLines c (some b) n ls = [] := by
  induction ls generalizing b n with
  | nil => rfl
  | cons l ls ih =>
    obtain ⟨hl, hls⟩ := List.forall_mem_cons.1 h
    rw [scanLines, if_neg (by simp [hl])]
    exact ih hls

theorem scanFrom_unclosed (hline : '\n' ∉ line) (hrest : Breaks rest) (hopens : f.Opens (dropReturn line))
    (hnone : ∀ start, ∀ l ∈ linesFrom start rest.tail, f.closedBy l.text = false) :
    scanFrom c before (line ++ rest) = [] := by
  by_cases hne : line ++ rest = []
  · rw [hne, scanFrom_nil]
  · rw [scanFrom, linesFrom_append hline hrest hne, scanLines, (fence?_eq_some_iff _).2 hopens]
    exact scanLines_unclosed (hnone _)

/-- A text read from its start: a line, a block, or a fence that no line closes. -/
inductive Divided : List Char → Prop
  | nil : Divided []
  | line {line rest : List Char} : '\n' ∉ line → Breaks rest → line ++ rest ≠ [] →
      (∀ f : Fence, ¬ f.Opens (dropReturn line)) → Divided rest.tail → Divided (line ++ rest)
  | block {f : Fence} {opening closing rest : List Char} {inner : List (List Char)} :
      ClosedBlock f opening inner closing → Breaks rest → Divided rest.tail →
      Divided (blockText opening inner closing ++ rest)
  | unclosed {f : Fence} {line rest : List Char} : '\n' ∉ line → Breaks rest → f.Opens (dropReturn line) →
      (∀ start, ∀ l ∈ linesFrom start rest.tail, f.closedBy l.text = false) → Divided (line ++ rest)

theorem divided (cs : List Char) : Divided cs := by
  induction hlen : cs.length using Nat.strongRecOn generalizing cs with
  | ind size ih =>
    obtain ⟨line, rest, rfl, hline, hrest⟩ := exists_line cs
    by_cases hne : line ++ rest = []
    · rw [hne]
      exact .nil
    · have hsize : 0 < (line ++ rest).length := List.length_pos_of_ne_nil hne
      cases hfence : fence? (dropReturn line) with
      | none =>
        have htail : rest.tail.length < size := by
          rw [List.length_tail]
          simp only [List.length_append] at hlen hsize
          omega
        exact .line hline hrest hne ((fence?_eq_none_iff _).1 hfence) (ih _ htail _ rfl)
      | some f =>
        have hopens := (fence?_eq_some_iff _).1 hfence
        rcases hrest with rfl | ⟨behind, rfl⟩
        · exact .unclosed hline (Or.inl rfl) hopens fun start l hl => absurd hl List.not_mem_nil
        · rcases exists_upTo f behind with hnone | ⟨inner, closing, rest, rfl, hinner, hlast, hrest, hinside, hcloses⟩
          · exact .unclosed hline (Or.inr ⟨behind, rfl⟩) hopens hnone
          · have hblock : ClosedBlock f line inner closing := {
              first := hline
              between := hinner
              last := hlast
              opens := hopens
              inside := fun l hl => (hopens.closedBy_eq_false_iff _).1 (hinside l hl)
              closes := (hopens.closedBy_iff _).1 hcloses }
            have htext : line ++ '\n' :: (upTo inner closing ++ rest) = blockText line inner closing ++ rest := by
              rw [blockText_eq, List.append_assoc, List.cons_append]
            have htail : rest.tail.length < size := by
              rw [List.length_tail]
              simp only [List.length_append, List.length_cons] at hlen
              omega
            rw [htext]
            exact .block hblock hrest (ih _ htail _ rfl)

/-! ### The fragments of a line and of a block -/

section

variable {cursor : Option Nat} {fragment : Fragment}

theorem cursor_iff (cursor : Option Nat) (piece : List Char) (hbefore : Begins before) (hrest : Breaks rest) :
    among (cursor.map (lineAt (before ++ piece ++ rest))) (before.count '\n') ((before ++ piece).count '\n') = true ↔
      Inside cursor (before ++ piece ++ rest) before piece := by
  cases cursor with
  | none => simp [among, Inside]
  | some offset =>
    have hiff := lineAt_mem_iff offset piece hbefore hrest
    simp only [among, Option.map_some, Option.any_some, Bool.and_eq_true, decide_eq_true_eq]
    rw [hiff]
    exact ⟨fun h => ⟨offset, rfl, h⟩, by rintro ⟨_, ⟨⟩, h⟩; exact h⟩

theorem Outside.begins (h : Outside before) : Begins before := by
  cases h with
  | start => exact Or.inl rfl
  | line _ _ _ => exact Or.inr ⟨_, rfl⟩
  | block _ _ => exact Or.inr ⟨_, rfl⟩

theorem inlineKind?_eq_some_iff {inner code : List Char} {kind : FragmentKind} :
    inlineKind? inner = some (kind, code) ↔ kind = .inlineExpression ∧ inner = "ldjs:".toList ++ code ∨
      kind = .inlineMarkup ∧ inner = "ldjsx:".toList ++ code := by
  unfold inlineKind?
  cases hfirst : afterStart? "ldjs:".toList inner with
  | some rest =>
    obtain rfl := afterStart?_eq_some_iff.1 hfirst
    simp [eq_comm]
  | none =>
    have hnot : ∀ code, inner ≠ "ldjs:".toList ++ code := fun code h => by
      rw [afterStart?_eq_some_iff.2 h] at hfirst
      contradiction
    simp only [hnot, and_false, false_or, Option.map_eq_some_iff, afterStart?_eq_some_iff, Prod.mk.injEq]
    constructor
    · rintro ⟨_, hcode, rfl, rfl⟩
      exact ⟨rfl, hcode⟩
    · rintro ⟨rfl, hcode⟩
      exact ⟨code, hcode, rfl, rfl⟩

theorem mem_inlineFragments_iff {start : Nat} {hasCursor : Bool} :
    fragment ∈ inlineFragments ⟨start, cs⟩ hasCursor ↔
      ∃ lead w inner tail, cs = lead ++ spanText w inner ++ tail ∧ Free lead (spanText w inner ++ tail) ∧
        Encloses w inner tail ∧ inlineKind? inner = some (fragment.kind, fragment.content.toList) ∧
        fragment.component = none ∧ fragment.start = start + byteLength lead ∧
        fragment.stop = start + byteLength (lead ++ spanText w inner) ∧ fragment.cursorInside = hasCursor := by
  unfold inlineFragments
  simp only [List.mem_filterMap, Option.map_eq_some_iff]
  constructor
  · rintro ⟨s, hs, ⟨kind, code⟩, hkind, rfl⟩
    obtain ⟨lead, w, inner, tail, hcs, hfree, hspan, rfl⟩ := mem_spansFrom_iff.1 hs
    exact ⟨lead, w, inner, tail, hcs, hfree, hspan, by rwa [String.toList_ofList], rfl, rfl, rfl, rfl⟩
  · rintro ⟨lead, w, inner, tail, hcs, hfree, hspan, hkind, hcomponent, hstart, hstop, hcursor⟩
    refine ⟨_, mem_spansFrom_iff.2 ⟨lead, w, inner, tail, hcs, hfree, hspan, rfl⟩, _, hkind, ?_⟩
    cases fragment
    simp_all

theorem mem_blockFragment_iff {info : List Char} {start stop : Nat} {content : List (List Char)} {hasCursor : Bool} :
    fragment ∈ blockFragment info start stop content hasCursor ↔
      blockKind? info = some (fragment.kind, fragment.component) ∧ fragment.start = start ∧ fragment.stop = stop ∧
        fragment.content = String.ofList (joinWith ['\n'] content) ∧ fragment.cursorInside = hasCursor := by
  unfold blockFragment
  cases blockKind? info with
  | none => simp
  | some found =>
    obtain ⟨kind, component⟩ := found
    cases fragment
    simp
    grind

theorem mem_inlineFragments_iff_isSpan (h : PlainLine text before line rest) :
    fragment ∈ inlineFragments ⟨byteLength before, dropReturn line⟩
        (cursor.map (lineAt text) == some (before.count '\n')) ↔
      ∃ lead w inner tail, IsSpan text cursor fragment before line lead w inner tail rest := by
  have hcount : (before ++ line).count '\n' = before.count '\n' := by
    rw [List.count_append, List.count_eq_zero.2 h.single, Nat.add_zero]
  have hcursor := cursor_iff cursor line h.outside.begins h.ends
  rw [hcount, ← h.whole, among_self] at hcursor
  rw [mem_inlineFragments_iff]
  constructor
  · rintro ⟨lead, w, inner, tail, hparts, hfree, hspan, hkind, hcomponent, hstart, hstop, hinside⟩
    refine ⟨lead, w, inner, tail, h, hparts, hfree, hspan, inlineKind?_eq_some_iff.1 hkind, hcomponent, ?_, ?_, ?_⟩
    · rw [hstart, byteLength_append]
    · rw [hstop, List.append_assoc, byteLength_append before]
    · rw [hinside, hcursor]
  · rintro ⟨lead, w, inner, tail, hspan⟩
    refine ⟨lead, w, inner, tail, hspan.parts, hspan.free, hspan.encloses, inlineKind?_eq_some_iff.2 hspan.kind,
      hspan.component, ?_, ?_, ?_⟩
    · rw [hspan.start, byteLength_append]
    · rw [hspan.stop, List.append_assoc, byteLength_append before]
    · rw [Bool.eq_iff_iff, hspan.cursor, hcursor]

theorem mem_blockFragment_iff_isBlock {opening : List Char}
    (hwhole : text = before ++ blockText opening inner closing ++ rest) (hout : Outside before) (hrest : Breaks rest)
    (hclosed : ClosedBlock f opening inner closing) :
    fragment ∈ blockFragment f.info (byteLength before)
        (byteLength (before ++ blockText opening inner (dropReturn closing))) (inner.map dropReturn)
        (among (cursor.map (lineAt text)) (before.count '\n')
          ((before ++ blockText opening inner closing).count '\n')) ↔
      IsBlock text cursor fragment f before opening inner closing rest := by
  have hcursor := cursor_iff cursor (blockText opening inner closing) hout.begins hrest
  rw [← hwhole] at hcursor
  rw [mem_blockFragment_iff]
  constructor
  · rintro ⟨hkind, hstart, hstop, hcontent, hinside⟩
    exact ⟨hwhole, hout, hrest, hclosed, hkind, hcontent, hstart, hstop, by rw [hinside, hcursor]⟩
  · intro h
    exact ⟨h.kind, h.start, h.stop, h.content, by rw [Bool.eq_iff_iff, h.cursor, hcursor]⟩

theorem upTo_append (inner : List (List Char)) (closing more : List Char) :
    upTo inner (closing ++ more) = upTo inner closing ++ more := by
  induction inner with
  | nil => rfl
  | cons line inner ih => rw [upTo_cons, upTo_cons, ih, List.append_assoc, List.cons_append]

theorem exists_blockText_dropReturn (opening : List Char) (inner : List (List Char)) (closing : List Char) :
    ∃ ret, blockText opening inner closing = blockText opening inner (dropReturn closing) ++ ret ∧
      (ret = [] ∨ ret = ['\x0d']) := by
  obtain ⟨ret, hret, hreturn⟩ := exists_dropReturn closing
  refine ⟨ret, ?_, hreturn⟩
  rw [blockText_eq, blockText_eq, List.append_assoc, List.cons_append, ← upTo_append, ← hret]

theorem IsSpan.exists_place {lead inner tail : List Char} {w : Nat}
    (h : IsSpan text cursor fragment before line lead w inner tail rest) :
    ∃ back, before ++ line = before ++ lead ++ spanText w inner ++ back := by
  obtain ⟨ret, hret, -⟩ := exists_dropReturn line
  refine ⟨tail ++ ret, ?_⟩
  rw [hret, h.parts]
  simp only [List.append_assoc]

theorem IsSpan.stop_le {lead inner tail : List Char} {w : Nat}
    (h : IsSpan text cursor fragment before line lead w inner tail rest) :
    byteLength before ≤ fragment.start ∧ fragment.stop ≤ byteLength (before ++ line) := by
  obtain ⟨back, hplace⟩ := h.exists_place
  rw [h.start, h.stop, hplace, byteLength_append _ back, byteLength_append before lead]
  exact ⟨Nat.le_add_right .., Nat.le_add_right ..⟩

theorem IsBlock.stop_le {opening : List Char}
    (h : IsBlock text cursor fragment f before opening inner closing rest) :
    fragment.stop ≤ byteLength (before ++ blockText opening inner closing) := by
  obtain ⟨ret, hret, -⟩ := exists_blockText_dropReturn opening inner closing
  rw [h.stop, hret, ← List.append_assoc, byteLength_append _ ret]
  exact Nat.le_add_right ..

theorem IsSpan.exists_code {lead inner tail : List Char} {w : Nat}
    (h : IsSpan text cursor fragment before line lead w inner tail rest) :
    ∃ front code back, text = front ++ code ++ back ∧ code ≠ [] ∧ fragment.start = byteLength front ∧
      fragment.stop = byteLength (front ++ code) := by
  obtain ⟨back, hplace⟩ := h.exists_place
  refine ⟨before ++ lead, spanText w inner, back ++ rest, ?_, spanText_ne_nil h.encloses, h.start, h.stop⟩
  rw [h.plain.whole, hplace, List.append_assoc]

theorem IsBlock.exists_code {opening : List Char}
    (h : IsBlock text cursor fragment f before opening inner closing rest) :
    ∃ front code back, text = front ++ code ++ back ∧ code ≠ [] ∧ fragment.start = byteLength front ∧
      fragment.stop = byteLength (front ++ code) := by
  obtain ⟨ret, hret, -⟩ := exists_blockText_dropReturn opening inner closing
  refine ⟨before, blockText opening inner (dropReturn closing), ret ++ rest, ?_, ?_, h.start, h.stop⟩
  · rw [h.whole, hret]
    simp only [List.append_assoc]
  · rw [blockText_eq]
    exact List.append_ne_nil_of_right_ne_nil _ (List.cons_ne_nil _ _)

/-! ### The whole document -/

theorem isFragment_of_mem_scanFrom (hdivided : Divided cs) (hout : Outside before) (hwhole : text = before ++ cs)
    (hmem : fragment ∈ scanFrom (cursor.map (lineAt text)) before cs) :
    (∃ before line lead w inner tail rest, IsSpan text cursor fragment before line lead w inner tail rest) ∨
      ∃ fence before opening inner closing rest,
        IsBlock text cursor fragment fence before opening inner closing rest := by
  -- what was read is a text of whole lines with no block open, whatever of the rest is read next
  induction hdivided generalizing before with
  | nil => exact absurd hmem List.not_mem_nil
  | @line line rest hline hrest hne hfence _ ih =>
    rw [scanFrom_line hline hrest hne hfence] at hmem
    rcases List.mem_append.1 hmem with hmem | hmem
    · have hplain : PlainLine text before line rest := ⟨by rw [hwhole, List.append_assoc], hout, hline, hrest, hfence⟩
      obtain ⟨lead, w, inner, tail, hspan⟩ := (mem_inlineFragments_iff_isSpan hplain).1 hmem
      exact Or.inl ⟨before, line, lead, w, inner, tail, rest, hspan⟩
    · rcases hrest with rfl | ⟨more, rfl⟩
      · exact absurd hmem List.not_mem_nil
      · refine ih (.line hout hline hfence) ?_ hmem
        rw [hwhole, List.append_assoc, List.append_assoc, List.singleton_append, List.tail_cons]
  | @block f opening closing rest inner hclosed hrest _ ih =>
    have hwhole' : text = before ++ blockText opening inner closing ++ rest := by rw [hwhole, List.append_assoc]
    rw [scanFrom_block hclosed hrest] at hmem
    rcases List.mem_append.1 hmem with hmem | hmem
    · have hblock := (mem_blockFragment_iff_isBlock hwhole' hout hrest hclosed).1 hmem
      exact Or.inr ⟨f, before, opening, inner, closing, rest, hblock⟩
    · rcases hrest with rfl | ⟨more, rfl⟩
      · exact absurd hmem List.not_mem_nil
      · refine ih (.block hout hclosed) ?_ hmem
        rw [hwhole', List.append_assoc _ ['\n'], List.singleton_append, List.tail_cons]
  | unclosed hline hrest hopens hnone =>
    rw [scanFrom_unclosed hline hrest hopens hnone] at hmem
    exact absurd hmem List.not_mem_nil

/-- Behind a text of whole lines with no block open the scanner goes on as if it began there. -/
theorem scanFrom_append_of_outside (h : Outside before) (c : Option Nat) (cs : List Char) :
    scanFrom c [] (before ++ cs) = scanFrom c [] before ++ scanFrom c before cs := by
  induction h generalizing cs with
  | start => rfl
  | @line before line _ hline hfence ih =>
    have hstep : ∀ more, scanFrom c before (line ++ '\n' :: more) =
        inlineFragments ⟨byteLength before, dropReturn line⟩ (c == some (before.count '\n')) ++
          scanFrom c (before ++ line ++ ['\n']) more := fun more =>
      scanFrom_line hline (Or.inr ⟨more, rfl⟩) (by simp) hfence
    have hend := ih (line ++ ['\n'])
    have hnext := ih (line ++ '\n' :: cs)
    rw [hstep, scanFrom_nil, List.append_nil] at hend
    rw [hstep, ← List.append_assoc (scanFrom c [] before), ← hend] at hnext
    simpa only [List.append_assoc, List.singleton_append] using hnext
  | @block before opening closing inner f _ hclosed ih =>
    have hstep : ∀ more, scanFrom c before (blockText opening inner closing ++ '\n' :: more) = _ ++
        scanFrom c (before ++ blockText opening inner closing ++ ['\n']) more := fun more =>
      scanFrom_block hclosed (Or.inr ⟨more, rfl⟩)
    have hend := ih (blockText opening inner closing ++ ['\n'])
    have hnext := ih (blockText opening inner closing ++ '\n' :: cs)
    rw [hstep, scanFrom_nil, List.append_nil] at hend
    rw [hstep, ← List.append_assoc (scanFrom c [] before), ← hend] at hnext
    simpa only [List.append_assoc, List.singleton_append] using hnext

theorem mem_scanFrom_of_isSpan {lead inner tail : List Char} {w : Nat}
    (h : IsSpan text cursor fragment before line lead w inner tail rest) :
    fragment ∈ scanFrom (cursor.map (lineAt text)) [] text := by
  have hplain := h.plain
  have hmem := (mem_inlineFragments_iff_isSpan hplain).2 ⟨lead, w, inner, tail, h⟩
  have hfound := scanFrom_append_of_outside hplain.outside (cursor.map (lineAt text)) (line ++ rest)
  -- the scanner leaves out an empty last line, but there is a span in this one
  have hne : line ++ rest ≠ [] := by
    refine List.append_ne_nil_of_left_ne_nil (ne_nil_of_dropReturn ?_) rest
    rw [h.parts]
    exact List.append_ne_nil_of_left_ne_nil (List.append_ne_nil_of_right_ne_nil _ (spanText_ne_nil h.encloses)) _
  rw [scanFrom_line hplain.single hplain.ends hne hplain.unfenced, ← List.append_assoc, ← hplain.whole] at hfound
  rw [hfound]
  exact List.mem_append_right _ (List.mem_append_left _ hmem)

theorem mem_scanFrom_of_isBlock {opening : List Char}
    (h : IsBlock text cursor fragment f before opening inner closing rest) :
    fragment ∈ scanFrom (cursor.map (lineAt text)) [] text := by
  have hmem := (mem_blockFragment_iff_isBlock h.whole h.outside h.ends h.closed).2 h
  have hfound := scanFrom_append_of_outside h.outside (cursor.map (lineAt text))
    (blockText opening inner closing ++ rest)
  rw [scanFrom_block h.closed h.ends, ← List.append_assoc, ← h.whole] at hfound
  rw [hfound]
  exact List.mem_append_right _ (List.mem_append_left _ hmem)

theorem inOrder_append {as bs : List Fragment} {low : Nat} (mid : Nat) (hle : low ≤ mid)
    (has : ∀ f ∈ as, low ≤ f.start ∧ f.stop ≤ mid) (hpairs : as.Pairwise fun f g => f.stop ≤ g.start)
    (hbs : (∀ f ∈ bs, mid ≤ f.start) ∧ bs.Pairwise fun f g => f.stop ≤ g.start) :
    (∀ f ∈ as ++ bs, low ≤ f.start) ∧ (as ++ bs).Pairwise fun f g => f.stop ≤ g.start := by
  constructor
  · intro f hf
    rcases List.mem_append.1 hf with hf | hf
    · exact (has f hf).1
    · exact Nat.le_trans hle (hbs.1 f hf)
  · exact List.pairwise_append.2
      ⟨hpairs, hbs.2, fun f hf g hg => Nat.le_trans (has f hf).2 (hbs.1 g hg)⟩

theorem inlineFragments_inOrder (l : Line) (hasCursor : Bool) :
    (inlineFragments l hasCursor).Pairwise fun f g => f.stop ≤ g.start := by
  refine List.Pairwise.filterMap _ ?_ (spansFrom_inOrder (spanned l.text) l.start).2
  intro s t hst f hf g hg
  obtain ⟨_, -, rfl⟩ := Option.map_eq_some_iff.1 hf
  obtain ⟨_, -, rfl⟩ := Option.map_eq_some_iff.1 hg
  exact hst

theorem pairwise_blockFragment (R : Fragment → Fragment → Prop) (info : List Char) (start stop : Nat)
    (content : List (List Char)) (hasCursor : Bool) : (blockFragment info start stop content hasCursor).Pairwise R := by
  unfold blockFragment
  split
  · exact List.pairwise_singleton ..
  · exact List.Pairwise.nil

theorem scanFrom_inOrder (hdivided : Divided cs) (hout : Outside before) (hwhole : text = before ++ cs) :
    (∀ f ∈ scanFrom (cursor.map (lineAt text)) before cs, byteLength before ≤ f.start) ∧
      (scanFrom (cursor.map (lineAt text)) before cs).Pairwise fun f g => f.stop ≤ g.start := by
  induction hdivided generalizing before with
  | nil => exact ⟨nofun, .nil⟩
  | @line line rest hline hrest hne hfence _ ih =>
    have hplain : PlainLine text before line rest := ⟨by rw [hwhole, List.append_assoc], hout, hline, hrest, hfence⟩
    rw [scanFrom_line hline hrest hne hfence]
    refine inOrder_append (byteLength (before ++ line)) ?_ ?_ (inlineFragments_inOrder ..) ?_
    · rw [byteLength_append]
      exact Nat.le_add_right ..
    · intro f hf
      obtain ⟨lead, w, inner, tail, hspan⟩ := (mem_inlineFragments_iff_isSpan hplain).1 hf
      exact hspan.stop_le
    · rcases hrest with rfl | ⟨more, rfl⟩
      · exact ⟨nofun, .nil⟩
      · obtain ⟨hle, hpairs⟩ := ih (.line hout hline hfence) (by simp [hwhole])
        exact ⟨fun f hf => Nat.le_trans (by simp [byteLength_append]) (hle f hf), hpairs⟩
  | @block f opening closing rest inner hclosed hrest _ ih =>
    have hwhole' : text = before ++ blockText opening inner closing ++ rest := by rw [hwhole, List.append_assoc]
    rw [scanFrom_block hclosed hrest]
    refine inOrder_append (byteLength (before ++ blockText opening inner closing)) ?_ ?_
      (pairwise_blockFragment ..) ?_
    · rw [byteLength_append]
      exact Nat.le_add_right ..
    · intro fragment hmem
      have hblock := (mem_blockFragment_iff_isBlock hwhole' hout hrest hclosed).1 hmem
      exact ⟨Nat.le_of_eq hblock.start.symm, hblock.stop_le⟩
    · rcases hrest with rfl | ⟨more, rfl⟩
      · exact ⟨nofun, .nil⟩
      · obtain ⟨hle, hpairs⟩ := ih (.block hout hclosed) (by simp [hwhole'])
        exact ⟨fun f hf => Nat.le_trans (by simp [byteLength_append]) (hle f hf), hpairs⟩
  | unclosed hline hrest hopens hnone =>
    rw [scanFrom_unclosed hline hrest hopens hnone]
    exact ⟨nofun, .nil⟩

theorem isFragment_of_mem_scan {text : String} (h : fragment ∈ scan text cursor) :
    (∃ before line lead w inner tail rest, IsSpan text.toList cursor fragment before line lead w inner tail rest) ∨
      ∃ fence before opening inner closing rest,
        IsBlock text.toList cursor fragment fence before opening inner closing rest :=
  isFragment_of_mem_scanFrom (divided text.toList) .start (List.nil_append _).symm h

theorem exists_code_of_mem_scan {text : String} (h : fragment ∈ scan text cursor) :
    ∃ front code back, text.toList = front ++ code ++ back ∧ code ≠ [] ∧ fragment.start = byteLength front ∧
      fragment.stop = byteLength (front ++ code) := by
  rcases isFragment_of_mem_scan h with ⟨before, line, lead, w, inner, tail, rest, hspan⟩ |
    ⟨fence, before, opening, inner, closing, rest, hblock⟩
  · exact hspan.exists_code
  · exact hblock.exists_code

/-- The fragments of a document are, in order and apart, the code spans outside of blocks and the blocks whose
prefix or first word names a kind; the cursor is in those that stand in its line. -/
theorem isScan_scan (text : String) (cursor : Option Nat) : IsScan text.toList cursor (scan text cursor) := by
  refine ⟨(scanFrom_inOrder (divided text.toList) .start rfl).2, fun f hf => exists_code_of_mem_scan hf,
    fun f => ⟨isFragment_of_mem_scan, ?_⟩⟩
  rintro (⟨before, line, lead, w, inner, tail, rest, hspan⟩ | ⟨fence, before, opening, inner, closing, rest, hblock⟩)
  · exact mem_scanFrom_of_isSpan hspan
  · exact mem_scanFrom_of_isBlock hblock

end

end LiveNotes.Document
