import LiveNotes.Proofs.Fragment.Scanning
import Mathlib.Data.Bool.AllAny

/-! Documents that fragments are written in. A block stands between two lines with the same fence, a code span in a
line of its own between two runs of backticks; blank lines may be between them, and any line may end in a carriage
return. Whatever the fences and the runs are, the scanner reads the same fragments back. -/

namespace LiveNotes

/-- The kind of a fragment, its code and its component. -/
def Fragment.reading (f : Fragment) : FragmentKind × String × Option String := (f.kind, f.content, f.component)

namespace Document

open Text

/-! ### Fragments to write -/

/-- Code that is written between runs of backticks in a line of its own. -/
structure SpanSource where
  isMarkup : Bool
  /-- How many backticks are in a run. -/
  width : Nat
  code : List Char
  pos : 0 < width
  single : '\n' ∉ code
  last : code.getLast? ≠ some backtick
  alone : ¬ HasRun width code

namespace SpanSource

def lead (s : SpanSource) : List Char := (if s.isMarkup then "ldjsx:" else "ldjs:").toList

def inner (s : SpanSource) : List Char := s.lead ++ s.code

def line (s : SpanSource) : List Char := spanText s.width s.inner

def kind (s : SpanSource) : FragmentKind := if s.isMarkup then .inlineMarkup else .inlineExpression

end SpanSource

/-- The name of a component, as a fence can tell it. -/
structure ComponentName where
  text : List Char
  ne_nil : text ≠ []
  solid : ∀ c ∈ text, isWhiteSpace c = false
  unticked : backtick ∉ text

/-- What a fence says of its block. -/
inductive BlockHead where
  | statements
  | markup
  | markupOf (name : ComponentName)
  | shorthand (name : ComponentName)

namespace BlockHead

def info : BlockHead → List Char
  | .statements => "ldjs".toList
  | .markup => "ldjsx".toList
  | .markupOf name => "ldjsx:".toList ++ name.text
  | .shorthand name => "ldsh:".toList ++ name.text

def kind : BlockHead → FragmentKind
  | .statements => .blockStatement
  | .markup | .markupOf _ | .shorthand _ => .blockMarkup

def component : BlockHead → Option String
  | .statements | .markup => none
  | .markupOf name | .shorthand name => some (String.ofList name.text)

end BlockHead

/-- Code that is written between two lines with the same fence. -/
structure BlockSource where
  mark : Char
  width : Nat
  head : BlockHead
  content : List Char
  isMark : mark = backtick ∨ mark = '~'
  wide : 3 ≤ width
  noReturn : '\x0d' ∉ content
  unclosed : ∀ line ∈ splitChar '\n' content, ¬ Fence.Closes ⟨mark, width, head.info⟩ line

namespace BlockSource

def fence (b : BlockSource) : Fence := ⟨b.mark, b.width, b.head.info⟩

def opening (b : BlockSource) : List Char := List.replicate b.width b.mark ++ b.head.info

def closing (b : BlockSource) : List Char := List.replicate b.width b.mark

end BlockSource

inductive Source where
  | span (s : SpanSource)
  | block (b : BlockSource)

/-- What the fragment of a source is to be. -/
def Source.reading : Source → FragmentKind × String × Option String
  | .span s => (s.kind, String.ofList s.code, none)
  | .block b => (b.head.kind, String.ofList b.content, b.head.component)

/-- The lines that a source is written in. A block without content may have no line between its fences. -/
inductive Source.Spells : Source → List (List Char) → Prop
  | span (s : SpanSource) : Spells (.span s) [s.line]
  | block (b : BlockSource) : Spells (.block b) (b.opening :: (splitChar '\n' b.content ++ [b.closing]))
  | empty (b : BlockSource) : b.content = [] → Spells (.block b) [b.opening, b.closing]

/-- The lines of sources behind each other, with blank lines anywhere between them. -/
inductive Spelled : List Source → List (List Char) → Prop
  | nil : Spelled [] []
  | blank {sources : List Source} {lines : List (List Char)} : Spelled sources lines → Spelled sources ([] :: lines)
  | cons {source : Source} {sources : List Source} {own lines : List (List Char)} : source.Spells own →
      Spelled sources lines → Spelled (source :: sources) (own ++ lines)

/-- A carriage return may end a line. -/
def Ended (typed line : List Char) : Prop := typed = line ∨ typed = line ++ ['\x0d']

instance (typed line : List Char) : Decidable (Ended typed line) :=
  inferInstanceAs (Decidable (typed = line ∨ typed = line ++ ['\x0d']))

/-- A text that sources are written in: their lines, with a line break between any two. -/
def Written (sources : List Source) (text : List Char) : Prop :=
  ∃ lines typed, Spelled sources lines ∧ List.Forall₂ Ended typed lines ∧ text = joinWith ['\n'] typed

variable {before rest line raw : List Char} {typed own : List (List Char)} {c : Option Nat}

/-! ### What fences say -/

theorem ComponentName.plain_append (name : ComponentName) {front : List Char}
    (hsolid : ∀ d ∈ front, isWhiteSpace d = false) (hticks : backtick ∉ front) :
    (∀ d ∈ front ++ name.text, isWhiteSpace d = false) ∧ backtick ∉ front ++ name.text :=
  ⟨List.forall_mem_append.2 ⟨hsolid, name.solid⟩, fun h => (List.mem_append.1 h).elim hticks name.unticked⟩

theorem BlockHead.info_plain (h : BlockHead) :
    (∀ d ∈ h.info, isWhiteSpace d = false) ∧ backtick ∉ h.info ∧ ∃ more, h.info = 'l' :: more := by
  cases h with
  | statements => exact ⟨List.all_iff_forall_prop.1 (by decide), by decide, _, rfl⟩
  | markup => exact ⟨List.all_iff_forall_prop.1 (by decide), by decide, _, rfl⟩
  | markupOf name =>
    have hfront : ∀ d ∈ "ldjsx:".toList, isWhiteSpace d = false := List.all_iff_forall_prop.1 (by decide)
    obtain ⟨hsolid, hticks⟩ := name.plain_append hfront (by decide)
    exact ⟨hsolid, hticks, _, rfl⟩
  | shorthand name =>
    have hfront : ∀ d ∈ "ldsh:".toList, isWhiteSpace d = false := List.all_iff_forall_prop.1 (by decide)
    obtain ⟨hsolid, hticks⟩ := name.plain_append hfront (by decide)
    exact ⟨hsolid, hticks, _, rfl⟩

theorem firstWord_of_solid {cs : List Char} (h : ∀ d ∈ cs, isWhiteSpace d = false) : firstWord cs = cs := by
  have hdrop : cs.dropWhile isWhiteSpace = cs := by
    cases cs with
    | nil => rfl
    | cons d cs => exact List.dropWhile_cons_of_neg (by simp [h d List.mem_cons_self])
  rw [firstWord, hdrop, List.takeWhile_eq_self_iff]
  exact fun d hd => by simp [h d hd]

theorem blockKind?_named {front : List Char} (hfront : front = "ldjsx".toList ∨ front = "ldsh".toList)
    (name : ComponentName) (hsolid : ∀ d ∈ front ++ ':' :: name.text, isWhiteSpace d = false) :
    blockKind? (front ++ ':' :: name.text) = some (.blockMarkup, some (String.ofList name.text)) := by
  have hother : front ++ ':' :: name.text ≠ "ldjs".toList := by
    intro h
    have hcolon : ':' ∈ front ++ ':' :: name.text := List.mem_append_right front List.mem_cons_self
    rw [h] at hcolon
    exact absurd hcolon (by decide)
  have hplain : ∀ d ∈ front, (d != ':') = true := by
    rcases hfront with rfl | rfl <;> exact List.all_iff_forall_prop.1 (by decide)
  have htake : (front ++ ':' :: name.text).takeWhile (· != ':') = front := by
    rw [List.takeWhile_append_of_pos hplain, List.takeWhile_cons_of_neg (by decide), List.append_nil]
  have hdrop : (front ++ ':' :: name.text).dropWhile (· != ':') = ':' :: name.text := by
    rw [List.dropWhile_append_of_pos hplain, List.dropWhile_cons_of_neg (by decide)]
  have hknown : (decide (front = "ldjsx".toList) || decide (front = "ldsh".toList)) = true := by
    rcases hfront with rfl | rfl <;> decide
  have hname : ¬ name.text.isEmpty = true := fun h => name.ne_nil (List.isEmpty_iff.1 h)
  unfold blockKind?
  rw [firstWord_of_solid hsolid, if_neg hother]
  dsimp only
  rw [htake, hdrop, if_pos hknown, List.drop_one, List.tail_cons, if_neg hname]

theorem blockKind?_info (h : BlockHead) : blockKind? h.info = some (h.kind, h.component) := by
  cases h with
  | statements => rfl
  | markup => rfl
  | markupOf name => exact blockKind?_named (Or.inl rfl) name (BlockHead.markupOf name).info_plain.1
  | shorthand name => exact blockKind?_named (Or.inr rfl) name (BlockHead.shorthand name).info_plain.1

/-! ### The lines of a source -/

/-- A text without a line feed that does not end in a carriage return. -/
structure IsLine (line : List Char) : Prop where
  single : '\n' ∉ line
  last : line.getLast? ≠ some '\x0d'

theorem isLine_of_solid (h : ∀ d ∈ line, isWhiteSpace d = false) : IsLine line := by
  have hnot : ∀ d, isWhiteSpace d = true → d ∉ line := fun d hd hmem => by simp [h d hmem] at hd
  exact ⟨hnot '\n' (by decide), fun hlast => hnot '\x0d' (by decide) (List.mem_of_getLast? hlast)⟩

theorem mem_joinWith {sep : List Char} {pieces : List (List Char)} {d : Char} (hline : line ∈ pieces) (hd : d ∈ line) :
    d ∈ joinWith sep pieces := by
  induction pieces with
  | nil => contradiction
  | cons piece pieces ih =>
    cases pieces with
    | nil => rwa [List.mem_singleton.1 hline] at hd
    | cons next pieces =>
      rw [joinWith_cons piece (List.cons_ne_nil next pieces), List.mem_append, List.mem_append]
      rcases List.mem_cons.1 hline with rfl | hline
      · exact Or.inl hd
      · exact Or.inr (Or.inr (ih hline))

theorem Ended.spec (h : Ended raw line) (hline : IsLine line) : '\n' ∉ raw ∧ dropReturn raw = line := by
  rcases h with rfl | rfl
  · exact ⟨hline.single, if_neg hline.last⟩
  · refine ⟨fun hmem => (List.mem_append.1 hmem).elim hline.single (by decide), ?_⟩
    rw [dropReturn, if_pos List.getLast?_concat, List.dropLast_concat]

theorem ended_lines (h : List.Forall₂ Ended typed own) (hown : ∀ line ∈ own, IsLine line) :
    (∀ raw ∈ typed, '\n' ∉ raw) ∧ typed.map dropReturn = own := by
  induction h with
  | nil => exact ⟨nofun, rfl⟩
  | @cons raw line typed own hraw _ ih =>
    obtain ⟨hline, hown⟩ := List.forall_mem_cons.1 hown
    obtain ⟨hsingle, hdrop⟩ := hraw.spec hline
    obtain ⟨hrest, hmap⟩ := ih hown
    exact ⟨List.forall_mem_cons.2 ⟨hsingle, hrest⟩, by rw [List.map_cons, hdrop, hmap]⟩

theorem hasRun_append {w : Nat} {lead : List Char} (hw : 0 < w) (hlead : ∀ d ∈ lead, d ≠ backtick) (cs : List Char) :
    HasRun w (lead ++ cs) ↔ HasRun w cs := by
  induction lead with
  | nil => exact Iff.rfl
  | cons d lead ih =>
    obtain ⟨hd, hlead⟩ := List.forall_mem_cons.1 hlead
    rw [List.cons_append, hasRun_cons hw hd, ih hlead]

namespace SpanSource

theorem lead_plain (s : SpanSource) : (∀ d ∈ s.lead, d ≠ backtick) ∧ ∃ front, s.lead = front ++ [':'] := by
  unfold lead
  cases s.isMarkup with
  | true => exact ⟨List.all_iff_forall_prop.1 (by decide), "ldjsx".toList, rfl⟩
  | false => exact ⟨List.all_iff_forall_prop.1 (by decide), "ldjs".toList, rfl⟩

theorem encloses (s : SpanSource) : Encloses s.width s.inner [] := by
  obtain ⟨hplain, front, hfront⟩ := s.lead_plain
  have hne : s.lead ≠ [] := by simp [hfront]
  have hlast : s.inner.getLast? ≠ some backtick := by
    rcases List.eq_nil_or_concat s.code with hcode | ⟨_, _, hcode⟩
    · rw [inner, hcode, List.append_nil]
      exact fun h => hplain _ (List.mem_of_getLast? h) rfl
    · rw [inner, List.getLast?_append_of_ne_nil _ (by simp [hcode])]
      exact s.last
  exact {
    pos := s.pos
    ne_nil := List.append_ne_nil_of_left_ne_nil hne _
    head := by
      rw [inner, List.head?_append_of_ne_nil _ hne]
      exact fun h => hplain _ (List.mem_of_head? h) rfl
    last := hlast
    behind := nofun
    alone := mt (hasRun_append s.pos hplain s.code).1 s.alone }

theorem isLine (s : SpanSource) : IsLine s.line := by
  have hticks : '\n' ∉ ticks s.width := fun h => absurd (List.eq_of_mem_replicate h) (by decide)
  have hlead : '\n' ∉ s.lead := by
    unfold lead
    cases s.isMarkup <;> decide
  obtain ⟨k, hk⟩ : ∃ k, s.width = k + 1 := ⟨s.width - 1, (Nat.sub_add_cancel s.pos).symm⟩
  refine ⟨by simp [line, spanText, inner, hticks, hlead, s.single], ?_⟩
  rw [line, spanText, hk, ticks, List.replicate_succ', ← List.append_assoc, List.getLast?_concat]
  decide

/-- Behind backticks there is no fence when more backticks follow. -/
theorem not_opens (s : SpanSource) (f : Fence) : ¬ f.Opens s.line := by
  rintro ⟨-, hwide, indent, tail, -, hline, hhead, hticks, -⟩
  have htext : s.line = ticks s.width ++ (s.inner ++ ticks s.width) := by rw [line, spanText, List.append_assoc]
  have hfirst : s.line.head? = some backtick := htext ▸ head?_ticks s.pos _
  -- the line starts with its first run, which is then the mark of the fence, and the second run is in the info
  obtain rfl : indent = 0 := by
    by_contra hne
    obtain ⟨k, rfl⟩ := Nat.exists_eq_succ_of_ne_zero hne
    rw [hline] at hfirst
    exact absurd (Option.some.inj hfirst) (by decide)
  obtain ⟨k, hk⟩ : ∃ k, f.width = k + 1 := ⟨f.width - 1, by omega⟩
  have hmark : f.mark = backtick := by
    rw [hline, hk] at hfirst
    exact Option.some.inj hfirst
  have hinner : (s.inner ++ ticks s.width).head? ≠ some backtick := by
    rw [List.head?_append_of_ne_nil _ s.encloses.ne_nil]
    exact s.encloses.head
  rw [hmark] at hline hhead
  have htail := (run_inj hinner hhead (htext.symm.trans hline)).2
  refine hticks hmark ?_
  rw [← htail]
  exact List.mem_append_right _ (List.mem_replicate.2 ⟨s.pos.ne', rfl⟩)

theorem inlineFragments_line (s : SpanSource) (start : Nat) (hasCursor : Bool) :
    ∃ f, f.reading = (Source.span s).reading ∧ inlineFragments ⟨start, s.line⟩ hasCursor = [f] := by
  have hspans : spansFrom start (s.line ++ []) = _ := spansFrom_span s.encloses
  have hkind : inlineKind? s.inner = some (s.kind, s.code) := by
    rw [inlineKind?_eq_some_iff]
    unfold inner lead kind
    cases s.isMarkup with
    | true => exact Or.inr ⟨rfl, rfl⟩
    | false => exact Or.inl ⟨rfl, rfl⟩
  rw [List.append_nil, spansFrom_nil] at hspans
  unfold spansFrom at hspans
  refine ⟨⟨s.kind, start, start + byteLength s.line, String.ofList s.code, none, hasCursor⟩, rfl, ?_⟩
  unfold inlineFragments
  dsimp only
  rw [hspans, List.filterMap_cons, hkind]
  rfl

end SpanSource

namespace BlockSource

theorem solid_mark (b : BlockSource) : isWhiteSpace b.mark = false := by
  rcases b.isMark with h | h <;> rw [h] <;> decide

theorem solid_closing (b : BlockSource) : ∀ d ∈ b.closing, isWhiteSpace d = false := by
  intro d hd
  rw [List.eq_of_mem_replicate hd]
  exact b.solid_mark

theorem solid_opening (b : BlockSource) : ∀ d ∈ b.opening, isWhiteSpace d = false :=
  List.forall_mem_append.2 ⟨b.solid_closing, b.head.info_plain.1⟩

theorem opens (b : BlockSource) : b.fence.Opens b.opening := by
  obtain ⟨hsolid, hticks, more, hinfo⟩ := b.head.info_plain
  have htrim : trimBoth isWhiteSpace ([] ++ b.head.info ++ []) = b.head.info :=
    trimBoth_append nofun nofun hsolid (by simp [hinfo])
  rw [List.nil_append, List.append_nil] at htrim
  refine ⟨b.isMark, b.wide, 0, b.head.info, Nat.zero_le _, rfl, ?_, fun _ => hticks, htrim.symm⟩
  have hhead : 'l' ≠ b.mark := by
    rcases b.isMark with h | h <;> rw [h] <;> decide
  rw [hinfo]
  exact fun h => hhead (Option.some.inj h)

theorem closes (b : BlockSource) : b.fence.Closes b.closing :=
  ⟨[], b.width, [], by simp [closing, fence], Nat.le_refl _, nofun, nofun⟩

theorem exists_inner {b : BlockSource} (h : (Source.block b).Spells own) :
    ∃ inner, own = b.opening :: (inner ++ [b.closing]) ∧ joinWith ['\n'] inner = b.content ∧
      ∀ line ∈ inner, IsLine line ∧ ¬ b.fence.Closes line := by
  cases h with
  | block =>
    have hcontent := joinWith_splitChar '\n' b.content
    refine ⟨splitChar '\n' b.content, rfl, hcontent, fun line hline => ⟨⟨not_mem_of_mem_splitChar hline, ?_⟩, ?_⟩⟩
    · exact fun hlast => b.noReturn (hcontent ▸ mem_joinWith hline (List.mem_of_getLast? hlast))
    · exact b.unclosed line hline
  | empty _ hempty => exact ⟨[], rfl, hempty.symm, nofun⟩

end BlockSource

/-! ### Reading -/

/-- What follows the lines of a source. -/
def behind : List (List Char) → List Char
  | [] => []
  | lines => '\n' :: joinWith ['\n'] lines

theorem breaks_behind (lines : List (List Char)) : Breaks (behind lines) := by
  cases lines with
  | nil => exact Or.inl rfl
  | cons line lines => exact Or.inr ⟨_, rfl⟩

theorem joinWith_append_behind (hne : typed ≠ []) (lines : List (List Char)) :
    joinWith ['\n'] (typed ++ lines) = joinWith ['\n'] typed ++ behind lines := by
  induction typed with
  | nil => contradiction
  | cons raw typed ih =>
    cases typed with
    | nil =>
      cases lines with
      | nil => exact (List.append_nil raw).symm
      | cons line lines => rw [List.singleton_append, joinWith_cons raw (List.cons_ne_nil line lines)]; rfl
    | cons next typed =>
      have hmore : next :: typed ++ lines ≠ [] := by simp
      rw [List.cons_append, joinWith_cons raw hmore, joinWith_cons raw (List.cons_ne_nil next typed),
        ih (List.cons_ne_nil next typed), List.append_assoc, List.append_assoc]

theorem scanBehind_behind (c : Option Nat) (piece : List Char) (lines : List (List Char)) :
    scanBehind c piece (behind lines) = scanFrom c (piece ++ ['\n']) (joinWith ['\n'] lines) := by
  cases lines with
  | nil => rfl
  | cons line lines => rfl

theorem Source.Spells.isLine {source : Source} (h : source.Spells own) : ∀ line ∈ own, IsLine line := by
  cases source with
  | span s =>
    cases h
    exact List.forall_mem_singleton.2 s.isLine
  | block b =>
    obtain ⟨inner, rfl, -, hinner⟩ := BlockSource.exists_inner h
    refine List.forall_mem_cons.2 ⟨isLine_of_solid b.solid_opening, List.forall_mem_append.2 ⟨?_, ?_⟩⟩
    · exact fun line hline => (hinner line hline).1
    · exact List.forall_mem_singleton.2 (isLine_of_solid b.solid_closing)

/-- In front of the lines of a source, with no block open, the scanner finds its fragment. -/
theorem exists_scanFrom {source : Source} (h : source.Spells own) (htyped : List.Forall₂ Ended typed own)
    (hrest : Breaks rest) (c : Option Nat) (before : List Char) :
    ∃ f piece, f.reading = source.reading ∧
      scanFrom c before (joinWith ['\n'] typed ++ rest) = f :: scanBehind c piece rest := by
  obtain ⟨hsingle, hlines⟩ := ended_lines htyped h.isLine
  cases source with
  | span s =>
    cases h
    obtain ⟨raw, rfl, hdrop⟩ := List.map_eq_singleton_iff.1 hlines
    have hne : raw ≠ [] := by
      refine ne_nil_of_dropReturn ?_
      rw [hdrop]
      exact spanText_ne_nil s.encloses
    have hread : scanFrom c before (raw ++ rest) = _ := scanFrom_line (hsingle raw (List.mem_singleton_self raw)) hrest
      (List.append_ne_nil_of_left_ne_nil hne rest) (hdrop ▸ s.not_opens)
    obtain ⟨f, hreading, hf⟩ := s.inlineFragments_line (byteLength before) (c == some (before.count '\n'))
    rw [hdrop, hf] at hread
    exact ⟨f, before ++ raw, hreading, hread⟩
  | block b =>
    obtain ⟨inner, rfl, hcontent, hinner⟩ := BlockSource.exists_inner h
    obtain ⟨first, more, rfl, hfirst, hmore⟩ := List.map_eq_cons_iff.1 hlines
    obtain ⟨middle, last, rfl, hmiddle, hlast⟩ := List.map_eq_append_iff.1 hmore
    obtain ⟨closing, rfl, hclosing⟩ := List.map_eq_singleton_iff.1 hlast
    have hclosed : ClosedBlock b.fence first middle closing := {
      first := hsingle first (by simp)
      between := fun line hline => hsingle line (by simp [hline])
      last := hsingle closing (by simp)
      opens := hfirst ▸ b.opens
      inside := fun line hline => (hinner _ (hmiddle ▸ List.mem_map_of_mem hline)).2
      closes := hclosing ▸ b.closes }
    have hread : scanFrom c before (blockText first middle closing ++ rest) = _ := scanFrom_block hclosed hrest
    have hkind : blockKind? b.fence.info = some (b.head.kind, b.head.component) := blockKind?_info b.head
    rw [hmiddle, blockFragment, hkind, hcontent] at hread
    exact ⟨_, _, rfl, hread⟩

theorem inlineFragments_nil (start : Nat) (hasCursor : Bool) : inlineFragments ⟨start, []⟩ hasCursor = [] := by
  have hspans : spansFrom start [] = [] := spansFrom_nil
  unfold spansFrom at hspans
  rw [inlineFragments, hspans, List.filterMap_nil]

theorem scanFrom_written {sources : List Source} {lines : List (List Char)} (h : Spelled sources lines)
    (htyped : List.Forall₂ Ended typed lines) (c : Option Nat) (before : List Char) :
    (scanFrom c before (joinWith ['\n'] typed)).map Fragment.reading = sources.map Source.reading := by
  -- a step reads a blank line or the lines of one source, and goes on behind them
  induction h generalizing typed before with
  | nil =>
    cases htyped
    rfl
  | @blank sources lines _ ih =>
    obtain ⟨raw, more, hraw, hmore, rfl⟩ := List.forall₂_cons_right_iff.1 htyped
    obtain ⟨hsingle, hdrop⟩ := hraw.spec ⟨List.not_mem_nil, nofun⟩
    have htext : joinWith ['\n'] (raw :: more) = raw ++ behind more :=
      joinWith_append_behind (List.cons_ne_nil raw []) more
    rw [htext]
    by_cases hne : raw ++ behind more = []
    · -- an empty line at the end is no line
      obtain rfl : more = [] := by
        cases more with
        | nil => rfl
        | cons line more => exact absurd (List.append_eq_nil_iff.1 hne).2 nofun
      rw [hne]
      exact ih hmore before
    · have hread : scanFrom c before (raw ++ behind more) = _ :=
        scanFrom_line hsingle (breaks_behind more) hne (hdrop ▸ (fence?_eq_none_iff []).1 rfl)
      rw [hread, hdrop, inlineFragments_nil, scanBehind_behind]
      exact ih hmore _
  | @cons source sources own lines hown _ ih =>
    have hfront := List.forall₂_take_append typed own lines htyped
    have hback := List.forall₂_drop_append typed own lines htyped
    have hne : typed.take own.length ≠ [] := by
      intro hnil
      rw [hnil, List.forall₂_nil_left_iff] at hfront
      subst hfront
      cases hown
    obtain ⟨f, piece, hreading, hread⟩ := exists_scanFrom hown hfront (breaks_behind (typed.drop own.length)) c before
    rw [← List.take_append_drop own.length typed, joinWith_append_behind hne, hread, scanBehind_behind, List.map_cons,
      List.map_cons, hreading, ih hback]

/-- The scanner reads back what is written. -/
theorem scan_written {sources : List Source} {text : String} (h : Written sources text.toList) (cursor : Option Nat) :
    (scan text cursor).map Fragment.reading = sources.map Source.reading := by
  obtain ⟨lines, typed, hspelled, htyped, htext⟩ := h
  have hread := scanFrom_written hspelled htyped (cursor.map (lineAt text.toList)) []
  rw [← htext] at hread
  exact hread

theorem exists_spelled (sources : List Source) : ∃ lines, Spelled sources lines := by
  induction sources with
  | nil => exact ⟨[], .nil⟩
  | cons source sources ih =>
    obtain ⟨lines, hlines⟩ := ih
    cases source with
    | span s => exact ⟨_, .cons (.span s) hlines⟩
    | block b => exact ⟨_, .cons (.block b) hlines⟩

/-- Whatever the sources are, they can be written. -/
theorem exists_written (sources : List Source) : ∃ text : String, Written sources text.toList := by
  obtain ⟨lines, hlines⟩ := exists_spelled sources
  have hended : List.Forall₂ Ended lines lines := List.forall₂_same.2 fun line _ => Or.inl rfl
  exact ⟨String.ofList (joinWith ['\n'] lines), lines, lines, hlines, hended, String.toList_ofList⟩

theorem not_closes_of_closedBy {f : Fence} {lines : List (List Char)} (hmark : f.mark = backtick ∨ f.mark = '~')
    (hwidth : 0 < f.width) (h : ∀ line ∈ lines, f.closedBy line = false) : ∀ line ∈ lines, ¬ f.Closes line := by
  intro line hline hcloses
  rw [← Fence.closedBy_iff hmark hwidth, h line hline] at hcloses
  contradiction

/-- Markup in a block of tildes that shows the fence of another one. -/
def chartBlock : BlockSource where
  mark := '~'
  width := 3
  head := .markupOf ⟨"Chart".toList, by decide, List.all_iff_forall_prop.1 (by decide), by decide⟩
  content := "<A>\n```ldjs\n</A>".toList
  isMark := Or.inr rfl
  wide := Nat.le_refl 3
  noReturn := by decide
  unclosed := not_closes_of_closedBy (Or.inr rfl) (by decide) (by decide)

/-- An expression with backticks of its own. -/
def sumSpan : SpanSource where
  isMarkup := false
  width := 2
  code := "`a` + 1".toList
  pos := Nat.two_pos
  single := by decide
  last := by decide
  alone := (cutAt_eq_none_iff Nat.two_pos _).1 (by decide)

def emptyBlock : BlockSource where
  mark := backtick
  width := 3
  head := .statements
  content := []
  isMark := Or.inl rfl
  wide := Nat.le_refl 3
  noReturn := List.not_mem_nil
  unclosed := not_closes_of_closedBy (Or.inl rfl) (by decide) (by decide)

def chartNote : String :=
  "~~~ldjsx:Chart\x0d\n<A>\x0d\n```ldjs\x0d\n</A>\x0d\n~~~\x0d\n\n``ldjs:`a` + 1``\n```ldjs\n```"

theorem scan_written_chart :
    Written [.block chartBlock, .span sumSpan, .block emptyBlock] chartNote.toList ∧
      (scan chartNote none).map Fragment.reading =
        [(.blockMarkup, "<A>\n```ldjs\n</A>", some "Chart"), (.inlineExpression, "`a` + 1", none),
          (.blockStatement, "", none)] := by
  have hspelled : Spelled [.block chartBlock, .span sumSpan, .block emptyBlock] _ :=
    .cons (.block chartBlock) (.blank (.cons (.span sumSpan) (.cons (.empty emptyBlock rfl) .nil)))
  have hwritten : Written [.block chartBlock, .span sumSpan, .block emptyBlock] chartNote.toList :=
    ⟨_, ["~~~ldjsx:Chart\x0d", "<A>\x0d", "```ldjs\x0d", "</A>\x0d", "~~~\x0d", "", "``ldjs:`a` + 1``",
      "```ldjs", "```"].map String.toList, hspelled, by decide, rfl⟩
  exact ⟨hwritten, (scan_written hwritten none).trans rfl⟩

end Document

end LiveNotes
