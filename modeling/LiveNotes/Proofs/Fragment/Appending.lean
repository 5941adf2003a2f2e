import LiveNotes.Proofs.Edit
import LiveNotes.Proofs.Fragment.Scanning

/-! A document in two parts. When the first part is made of whole lines and closes every fence that it opens, the
scanner finds in the whole what it finds in the parts, the second one moved behind the first. So no edit behind
such a place changes the fragments before it. Where this is so no block is open, and the other way round. -/

namespace LiveNotes

/-- A fragment that stands `n` bytes later. -/
def Fragment.shift (n : Nat) (f : Fragment) : Fragment := { f with start := n + f.start, stop := n + f.stop }

namespace Document

open Text

variable {before line front rest cs : List Char} {f : Fence} {n : Nat}

/-- Some line behind the one of a fence closes its block. -/
def Fence.ClosedIn (f : Fence) (rest : List Char) : Prop :=
  ∃ front closing behind, rest = '\n' :: (front ++ (closing ++ behind)) ∧ Begins front ∧ '\n' ∉ closing ∧
    Breaks behind ∧ f.Closes (dropReturn closing)

/-- A text that is empty or ends with a line feed, and in which each fence that the scanner comes to, outside of all
blocks, is closed again. -/
structure Settled (text : List Char) : Prop where
  ends : Begins text
  closed : ∀ (before opening rest : List Char) (f : Fence), text = before ++ opening ++ rest → Outside before →
    '\n' ∉ opening → Breaks rest → f.Opens (dropReturn opening) → f.ClosedIn rest

/-! ### Whole lines -/

theorem Begins.eq_nil_of_line (h : Begins (before ++ line)) (hline : '\n' ∉ line) : line = [] := by
  by_contra hne
  have hlast : (before ++ line).getLast? = line.getLast? := List.getLast?_append_of_ne_nil before hne
  rcases h with hnil | ⟨front, hfront⟩
  · exact hne (List.append_eq_nil_iff.1 hnil).2
  · rw [hfront, List.getLast?_concat] at hlast
    exact hline (List.mem_of_getLast? hlast.symm)

theorem Begins.of_append (h : Begins (front ++ '\n' :: cs)) : Begins cs := by
  rcases List.eq_nil_or_concat cs with rfl | ⟨init, last, rfl⟩
  · exact Or.inl rfl
  · rcases h with hnil | ⟨whole, hwhole⟩
    · exact absurd hnil (by simp)
    · have hlast : last = '\n' := by
        have hends := congrArg List.getLast? hwhole
        rw [List.concat_eq_append, ← List.cons_append, ← List.append_assoc, List.getLast?_concat,
          List.getLast?_concat] at hends
        exact Option.some.inj hends
      exact Or.inr ⟨init, by rw [hlast, List.concat_eq_append]⟩

/-- The lines of a text are those of whole lines in front and those of the rest. -/
theorem linesFrom_append_of_begins (hfront : Begins front) (start : Nat) (cs : List Char) :
    linesFrom start (front ++ cs) = linesFrom start front ++ linesFrom (start + byteLength front) cs := by
  induction hlen : front.length using Nat.strongRecOn generalizing front start with
  | ind size ih =>
    obtain ⟨line, rest, rfl, hline, hrest⟩ := exists_line front
    rcases hrest with rfl | ⟨more, rfl⟩
    · rw [List.append_nil] at hfront ⊢
      obtain rfl : line = [] := @Begins.eq_nil_of_line [] line hfront hline
      rfl
    · have hmore : more.length < size := by
        rw [← hlen, List.length_append, List.length_cons]
        omega
      have hnext := ih more.length hmore hfront.of_append (start + byteLength line + 1) rfl
      have hsize : byteLength (line ++ '\n' :: more) = byteLength line + 1 + byteLength more := by
        rw [List.append_cons, byteLength_append, byteLength_append, byteLength_lineFeed]
      have hstep := fun more => @linesFrom_append line ('\n' :: more) start hline (Or.inr ⟨more, rfl⟩) (by simp)
      rw [List.append_assoc, List.cons_append, hstep, hstep, List.tail_cons, List.tail_cons, hnext, hsize]
      simp only [List.cons_append, Nat.add_assoc]

theorem exists_mem_linesFrom (hfront : Begins front) (hline : '\n' ∉ line) (hrest : Breaks rest) (hne : line ≠ [])
    (start : Nat) : ∃ l ∈ linesFrom start (front ++ (line ++ rest)), l.text = dropReturn line := by
  rw [linesFrom_append_of_begins hfront, linesFrom_append hline hrest (List.append_ne_nil_of_left_ne_nil hne rest)]
  exact ⟨_, List.mem_append_right _ List.mem_cons_self, rfl⟩

/-! ### Fragments that are moved -/

theorem spansFrom_shift (hcs : Spanned cs) (n start : Nat) : spansFrom (n + start) cs =
    (spansFrom start cs).map fun s => { s with start := n + s.start, stop := n + s.stop } := by
  induction hcs generalizing start with
  | nil => rw [spansFrom_nil, spansFrom_nil]; rfl
  | plain hc _ ih => rw [spansFrom_plain hc, spansFrom_plain hc, Nat.add_assoc, ih]
  | lone hw hrest hnone _ ih =>
    rw [spansFrom_lone hw hrest hnone, spansFrom_lone hw hrest hnone, Nat.add_assoc, ih]
  | span hspan _ ih => rw [spansFrom_span hspan, spansFrom_span hspan, Nat.add_assoc, ih, List.map_cons]

theorem inlineFragments_shift (n start : Nat) (cs : List Char) (hasCursor : Bool) :
    inlineFragments ⟨n + start, cs⟩ hasCursor = (inlineFragments ⟨start, cs⟩ hasCursor).map (Fragment.shift n) := by
  have hspans := spansFrom_shift (spanned cs) n start
  unfold spansFrom at hspans
  unfold inlineFragments
  dsimp only
  rw [hspans, List.filterMap_map, List.map_filterMap]
  refine List.filterMap_congr fun s _ => ?_
  simp only [Function.comp_apply, Option.map_map]
  rfl

theorem blockFragment_shift (n : Nat) (info : List Char) (start stop : Nat) (content : List (List Char))
    (hasCursor : Bool) : blockFragment info (n + start) (n + stop) content hasCursor =
      (blockFragment info start stop content hasCursor).map (Fragment.shift n) := by
  unfold blockFragment
  split
  · rfl
  · rfl

/-- Without a cursor the scanner finds the same behind any text, only later. -/
theorem scanFrom_shift (hdivided : Divided cs) (front before : List Char) :
    scanFrom none (front ++ before) cs = (scanFrom none before cs).map (Fragment.shift (byteLength front)) := by
  induction hdivided generalizing before with
  | nil => rfl
  | @line line rest hline hrest hne hfence _ ih =>
    have hinline := inlineFragments_shift (byteLength front) (byteLength before) (dropReturn line) false
    rw [← byteLength_append] at hinline
    rw [scanFrom_line hline hrest hne hfence, scanFrom_line hline hrest hne hfence, List.map_append]
    refine congrArg₂ _ hinline ?_
    rcases hrest with rfl | ⟨more, rfl⟩
    · rfl
    · have hnext := ih (before ++ line ++ ['\n'])
      rw [← List.append_assoc, ← List.append_assoc] at hnext
      exact hnext
  | @block f opening closing rest inner hclosed hrest _ ih =>
    have hblock := blockFragment_shift (byteLength front) f.info (byteLength before)
      (byteLength (before ++ blockText opening inner (dropReturn closing))) (inner.map dropReturn) false
    rw [← byteLength_append, ← byteLength_append, ← List.append_assoc] at hblock
    rw [scanFrom_block hclosed hrest, scanFrom_block hclosed hrest, List.map_append]
    refine congrArg₂ _ hblock ?_
    rcases hrest with rfl | ⟨more, rfl⟩
    · rfl
    · have hnext := ih (before ++ blockText opening inner closing ++ ['\n'])
      rw [← List.append_assoc, ← List.append_assoc] at hnext
      exact hnext
  | unclosed hline hrest hopens hnone =>
    rw [scanFrom_unclosed hline hrest hopens hnone, scanFrom_unclosed hline hrest hopens hnone]
    rfl

/-! ### Settled texts -/

theorem outside_of_divided (hdivided : Divided cs) (hout : Outside before) (h : Settled (before ++ cs)) :
    Outside (before ++ cs) := by
  -- a line or a block without a line feed behind it would be the end of the text, which is one of whole lines
  induction hdivided generalizing before with
  | nil => rwa [List.append_nil]
  | @line line rest hline hrest hne hfence _ ih =>
    rcases hrest with rfl | ⟨more, rfl⟩
    · rw [List.append_nil] at h hne
      exact absurd (h.ends.eq_nil_of_line hline) hne
    · have hnext : before ++ (line ++ '\n' :: more) = before ++ line ++ ['\n'] ++ more := by simp
      rw [hnext] at h ⊢
      exact ih (.line hout hline hfence) h
  | @block f opening closing rest inner hclosed hrest _ ih =>
    rcases hrest with rfl | ⟨more, rfl⟩
    · have hlast : closing ≠ [] := ne_nil_of_dropReturn
        (Fence.ne_nil_of_closedBy hclosed.opens.width_pos ((hclosed.opens.closedBy_iff _).2 hclosed.closes))
      have hends := h.ends
      rw [List.append_nil, blockText_eq, ← List.nil_append closing, upTo_append, ← List.cons_append,
        ← List.append_assoc, ← List.append_assoc] at hends
      exact absurd (hends.eq_nil_of_line hclosed.last) hlast
    · have hnext : before ++ (blockText opening inner closing ++ '\n' :: more) =
          before ++ blockText opening inner closing ++ ['\n'] ++ more := by simp
      rw [hnext] at h ⊢
      exact ih (.block hout hclosed) h
  | @unclosed f line rest hline hrest hopens hnone =>
    obtain ⟨front, closing, behind, rfl, hfront, hclosing, hbehind, hcloses⟩ :=
      h.closed before line rest f (List.append_assoc ..).symm hout hline hrest hopens
    have hclosed : f.closedBy (dropReturn closing) = true := (hopens.closedBy_iff _).2 hcloses
    have hlast : closing ≠ [] := ne_nil_of_dropReturn (Fence.ne_nil_of_closedBy hopens.width_pos hclosed)
    obtain ⟨l, hl, htext⟩ := exists_mem_linesFrom hfront hclosing hbehind hlast 0
    have hopen := hnone 0 l hl
    rw [htext, hclosed] at hopen
    contradiction

theorem Settled.outside (h : Settled cs) : Outside cs := outside_of_divided (divided cs) .start h

theorem begins_upTo (inner : List (List Char)) : Begins (upTo inner []) := by
  induction inner with
  | nil => exact Or.inl rfl
  | cons line inner ih =>
    rw [upTo_cons]
    rcases ih with hnil | ⟨front, hfront⟩
    · exact Or.inr ⟨line, by rw [hnil]⟩
    · exact Or.inr ⟨line ++ '\n' :: front, by rw [hfront, List.append_assoc, List.cons_append]⟩

/-- A line with a code span, to see whether a block is open in front of it. -/
def probe : List Char := spanText 1 "ldjs:".toList

theorem closedBy_probe (h : f.Opens line) : f.closedBy probe = false := by
  have hprobe : trimBoth isWhiteSpace probe = probe := by decide
  have hall : probe.all (· == f.mark) = false := by
    rcases h.mark with hmark | hmark <;> rw [hmark] <;> decide
  unfold Fence.closedBy
  dsimp only
  rw [hprobe, hall, Bool.and_false]

theorem scanFrom_probe (before : List Char) : scanFrom none before probe ≠ [] := by
  have hfence : ∀ f : Fence, ¬ f.Opens (dropReturn probe) := (fence?_eq_none_iff _).1 (by decide)
  have hinline : inlineFragments ⟨byteLength before, dropReturn probe⟩ false ≠ [] := by
    rw [← Nat.add_zero (byteLength before), inlineFragments_shift]
    exact fun h => absurd (List.map_eq_nil_iff.1 h) (by decide +kernel)
  rw [← List.append_nil probe, scanFrom_line (by decide) (Or.inl rfl) (by decide) hfence]
  exact List.append_ne_nil_of_left_ne_nil hinline _

theorem Outside.settled (h : Outside cs) : Settled cs := by
  refine ⟨h.begins, ?_⟩
  rintro before opening rest f rfl hbefore hopening hrest hopens
  rcases hrest with rfl | ⟨more, rfl⟩
  · have hne : opening ≠ [] := by
      rintro rfl
      exact absurd ((fence?_eq_some_iff _).2 hopens) nofun
    rw [List.append_nil] at h
    exact absurd (h.begins.eq_nil_of_line hopening) hne
  · rcases exists_upTo f more with hnone | ⟨inner, closing, behind, rfl, hinner, hlast, hbehind, -, hcloses⟩
    · -- then the scanner would find nothing behind the fence, and it does behind the whole text
      have hlines : ∀ start, ∀ l ∈ linesFrom start (more ++ probe), f.closedBy l.text = false := by
        intro start l hl
        rw [linesFrom_append_of_begins h.begins.of_append] at hl
        rcases List.mem_append.1 hl with hl | hl
        · exact hnone start l hl
        · obtain rfl := List.mem_singleton.1 hl
          exact closedBy_probe hopens
      have hopen : scanFrom none before (opening ++ '\n' :: more) = [] :=
        scanFrom_unclosed hopening (Or.inr ⟨more, rfl⟩) hopens hnone
      have hopen' : scanFrom none before (opening ++ '\n' :: (more ++ probe)) = [] :=
        scanFrom_unclosed hopening (Or.inr ⟨more ++ probe, rfl⟩) hopens hlines
      have hfound := scanFrom_append_of_outside h none probe
      rw [List.append_assoc, List.append_assoc before, List.append_assoc, List.cons_append,
        scanFrom_append_of_outside hbefore, scanFrom_append_of_outside hbefore, hopen, hopen', List.append_nil] at hfound
      exact absurd (List.append_right_eq_self.1 hfound.symm) (scanFrom_probe _)
    · refine ⟨upTo inner [], closing, behind, ?_, begins_upTo inner, hlast, hbehind, (hopens.closedBy_iff _).1 hcloses⟩
      have hcut : upTo inner closing = upTo inner [] ++ closing := upTo_append inner [] closing
      rw [hcut, List.append_assoc]

/-- A text is settled exactly when no block is open behind it. -/
theorem settled_iff : Settled cs ↔ Outside cs := ⟨Settled.outside, Outside.settled⟩

/-! ### A text behind a settled one -/

/-- Behind a settled text the fragments are those of what follows, moved there, and those before stay. -/
theorem scan_append {a : String} (ha : Settled a.toList) (b : String) :
    scan (a ++ b) none = scan a none ++ (scan b none).map (Fragment.shift a.utf8ByteSize) ∧
      (scan (a ++ b) none).filter (fun f => f.start < a.utf8ByteSize) = scan a none := by
  have hsize : byteLength a.toList = a.utf8ByteSize := byteLength_toList a
  have hscan : scan (a ++ b) none = scan a none ++ (scan b none).map (Fragment.shift a.utf8ByteSize) := by
    have hshift := scanFrom_shift (divided b.toList) a.toList []
    rw [List.append_nil, hsize] at hshift
    have hparts := scanFrom_append_of_outside ha.outside none b.toList
    rw [hshift, ← String.toList_append] at hparts
    exact hparts
  have hbefore : ∀ f ∈ scan a none, f.start < a.utf8ByteSize := by
    intro f hf
    obtain ⟨front, code, back, htext, hne, hstart, -⟩ := exists_code_of_mem_scan hf
    have hcode := byteLength_pos hne
    rw [hstart, ← hsize, htext, byteLength_append, byteLength_append]
    omega
  have hbehind : ∀ f ∈ (scan b none).map (Fragment.shift a.utf8ByteSize), ¬ f.start < a.utf8ByteSize := by
    intro f hf
    obtain ⟨g, -, rfl⟩ := List.mem_map.1 hf
    exact Nat.not_lt.2 (Nat.le_add_right ..)
  refine ⟨hscan, ?_⟩
  rw [hscan, List.filter_append, List.filter_eq_self.2 (by simpa using hbefore),
    List.filter_eq_nil_iff.2 (by simpa using hbehind), List.append_nil]

theorem scan_append_block :
    Settled "~~~ldjs\n1\n~~~\n".toList ∧
      scan ("~~~ldjs\n1\n~~~\n" ++ "\x60ldjs:x\x60") none =
        scan "~~~ldjs\n1\n~~~\n" none ++ (scan "\x60ldjs:x\x60" none).map (Fragment.shift 14) ∧
      (scan ("~~~ldjs\n1\n~~~\n" ++ "\x60ldjs:x\x60") none).filter (fun f => f.start < 14) =
        scan "~~~ldjs\n1\n~~~\n" none := by
  have hopens : fence? "~~~ldjs".toList = some ⟨'~', 3, "ldjs".toList⟩ := by decide
  have hclosed : ClosedBlock ⟨'~', 3, "ldjs".toList⟩ "~~~ldjs".toList ["1".toList] "~~~".toList := {
    first := by decide
    between := by decide
    last := by decide
    opens := (fence?_eq_some_iff _).1 hopens
    inside := by
      have hopen := Fence.Opens.closedBy_eq_false_iff ((fence?_eq_some_iff _).1 hopens) "1".toList
      exact List.forall_mem_singleton.2 (hopen.1 (by decide))
    closes := (((fence?_eq_some_iff _).1 hopens).closedBy_iff _).1 (by decide) }
  have hsettled : Settled "~~~ldjs\n1\n~~~\n".toList := Outside.settled (.block .start hclosed)
  exact ⟨hsettled, scan_append hsettled _⟩

end Document

end LiveNotes
