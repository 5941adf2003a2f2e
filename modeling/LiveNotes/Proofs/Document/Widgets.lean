import LiveNotes.Proofs.Document.Pass
import LiveNotes.Proofs.Edit
import LiveNotes.Proofs.Fragment.Scanning

/-! What the widgets of a pass take the place of. The one of a code span takes the span; the one of a block takes
the line breaks around it, too. All of them stand on whole characters, one behind the other, and they are apart
but for one case: of two blocks with a line feed alone between them both take the line feed. -/

namespace LiveNotes

open Text

/-- A place in front of a character, or the end of the text. -/
def IsBoundary (text : List Char) (n : Nat) : Prop := ∃ left right, text = left ++ right ∧ byteLength left = n

/-- What is shown in place of the bytes from `start` to `stop`. -/
structure Widget where
  kind : FragmentKind
  start : Nat
  stop : Nat
  deriving DecidableEq, Repr

def Fragment.widget (f : Fragment) (size : Nat) : Widget := ⟨f.kind, (f.decoration size).1, (f.decoration size).2⟩

def RenderInstruction.widget (i : RenderInstruction) : Widget := ⟨i.kind, i.start, i.stop⟩

namespace Widget

/-- A widget takes a piece of the text, of whole characters. -/
structure StandsIn (text : List Char) (w : Widget) : Prop where
  nonempty : w.start < w.stop
  inside : w.stop ≤ byteLength text
  first : IsBoundary text w.start
  last : IsBoundary text w.stop

/-- The widgets of two blocks that both take the line feed between the blocks, and nothing else. -/
structure ShareBreak (text : List Char) (w v : Widget) : Prop where
  blocks : w.kind.isInline = false ∧ v.kind.isInline = false
  meet : w.stop = v.start + 1
  lineFeed : ∃ left right, text = left ++ '\n' :: right ∧ byteLength left = v.start

/-- Widgets in the order of the text, of which no two take the same byte unless it is a shared line feed. -/
structure Ordered (text : List Char) (ws : List Widget) : Prop where
  inText : ∀ w ∈ ws, w.StandsIn text
  increasing : ws.Pairwise fun w v => w.start < v.start ∧ w.stop < v.stop
  apart : ws.Pairwise fun w v => w.stop ≤ v.start ∨ ShareBreak text w v

theorem Ordered.sublist {text : List Char} {ws vs : List Widget} (h : Ordered text ws) (hsub : vs.Sublist ws) :
    Ordered text vs :=
  ⟨fun v hv => h.inText v (hsub.subset hv), h.increasing.sublist hsub, h.apart.sublist hsub⟩

end Widget

/-- The second of two blocks starts in the line behind the first, and a line feed alone is between them. -/
def Fragment.Adjoins (f g : Fragment) : Prop :=
  f.kind.isInline = false ∧ g.kind.isInline = false ∧ g.start = f.stop + 1

/-- A fragment ends before another one, and where one of the two is a block there is something between them. -/
structure Fragment.Precedes (f g : Fragment) : Prop where
  le : f.stop ≤ g.start
  lt : f.kind.isInline = false ∨ g.kind.isInline = false → f.stop < g.start

namespace Fragment

variable {f g : Fragment} {size : Nat}

theorem widget_of_inline (h : f.kind.isInline = true) (size : Nat) : f.widget size = ⟨f.kind, f.start, f.stop⟩ := by
  rw [widget, decoration, if_pos h]

theorem widget_of_block (h : f.kind.isInline = false) (size : Nat) :
    f.widget size = ⟨f.kind, f.start - 1, min (f.stop + 1) size⟩ := by
  rw [widget, decoration, if_neg (by simp [h])]

section

variable (h : f.Precedes g) (hf : f.start < f.stop) (hg : g.start < g.stop) (hsize : g.stop ≤ size)

include h hf hg hsize

theorem Precedes.increasing :
    (f.widget size).start < (g.widget size).start ∧ (f.widget size).stop < (g.widget size).stop := by
  have hle := h.le
  have hlt := h.lt
  cases hfk : f.kind.isInline <;> cases hgk : g.kind.isInline <;>
    simp only [hfk, hgk, widget_of_inline, widget_of_block, reduceCtorEq, or_true, or_false, true_implies] at hlt ⊢ <;>
    omega

theorem Precedes.stop_le_iff : (f.widget size).stop ≤ (g.widget size).start ↔ ¬ f.Adjoins g := by
  have hle := h.le
  have hlt := h.lt
  unfold Adjoins
  cases hfk : f.kind.isInline <;> cases hgk : g.kind.isInline <;>
    simp only [hfk, hgk, widget_of_inline, widget_of_block, reduceCtorEq, or_true, or_false, true_implies, true_and,
      false_and, and_false, not_false_eq_true, iff_true] at hlt ⊢ <;>
    omega

end

end Fragment

namespace Document

variable {before piece line rest cs text : List Char} {cursor : Option Nat} {f g : Fragment}

/-! ### Neighbours in a document -/

theorem IsSpan.isInline {lead inner tail : List Char} {w : Nat}
    (h : IsSpan text cursor f before line lead w inner tail rest) : f.kind.isInline = true := by
  rcases h.kind with ⟨hkind, -⟩ | ⟨hkind, -⟩ <;> rw [hkind] <;> rfl

theorem isInline_of_blockKind? {info : List Char} {kind : FragmentKind} {component : Option String}
    (h : blockKind? info = some (kind, component)) : kind.isInline = false := by
  unfold blockKind? at h
  grind [FragmentKind.isInline]

theorem lt_start_of_mem_scanBehind (hbehind : Divided rest.tail) (hrest : Breaks rest) (hout : Outside (piece ++ ['\n']))
    (hwhole : text = piece ++ rest) (hg : g ∈ scanBehind (cursor.map (lineAt text)) piece rest) :
    byteLength piece < g.start := by
  rcases hrest with rfl | ⟨more, rfl⟩
  · exact absurd hg List.not_mem_nil
  · have hle := (scanFrom_inOrder hbehind hout (by simp [hwhole])).1 g hg
    rw [byteLength_append, byteLength_lineFeed] at hle
    omega

theorem scanFrom_precedes (hdivided : Divided cs) (hout : Outside before) (hwhole : text = before ++ cs) :
    (scanFrom (cursor.map (lineAt text)) before cs).Pairwise Fragment.Precedes := by
  -- spans of one line may touch, but between a line or a block and what follows it there is a line feed
  induction hdivided generalizing before with
  | nil => exact .nil
  | @line line rest hline hrest hne hfence hbehind ih =>
    have hwhole' : text = before ++ line ++ rest := by rw [hwhole, List.append_assoc]
    have hspan : ∀ f ∈ inlineFragments ⟨byteLength before, dropReturn line⟩
        (cursor.map (lineAt text) == some (before.count '\n')),
        f.kind.isInline = true ∧ f.stop ≤ byteLength (before ++ line) := by
      intro f hf
      obtain ⟨lead, w, inner, tail, hspan⟩ :=
        (mem_inlineFragments_iff_isSpan ⟨hwhole', hout, hline, hrest, hfence⟩).1 hf
      exact ⟨hspan.isInline, hspan.stop_le.2⟩
    have hafter := fun g hg => @lt_start_of_mem_scanBehind _ _ _ cursor g hbehind hrest (.line hout hline hfence) hwhole' hg
    rw [scanFrom_line hline hrest hne hfence]
    refine List.pairwise_append.2 ⟨?_, ?_, fun f hf g hg => ?_⟩
    · refine (inlineFragments_inOrder _ _).imp_of_mem fun hf hg hle => ⟨hle, ?_⟩
      simp [(hspan _ hf).1, (hspan _ hg).1]
    · rcases hrest with rfl | ⟨more, rfl⟩
      · exact .nil
      · exact ih (.line hout hline hfence) (by simp [hwhole])
    · have hlt := Nat.lt_of_le_of_lt (hspan f hf).2 (hafter g hg)
      exact ⟨hlt.le, fun _ => hlt⟩
  | @block fence opening closing rest inner hclosed hrest hbehind ih =>
    have hwhole' : text = before ++ blockText opening inner closing ++ rest := by rw [hwhole, List.append_assoc]
    have hafter := fun g hg => @lt_start_of_mem_scanBehind _ _ _ cursor g hbehind hrest (.block hout hclosed) hwhole' hg
    rw [scanFrom_block hclosed hrest]
    refine List.pairwise_append.2 ⟨pairwise_blockFragment .., ?_, fun f hf g hg => ?_⟩
    · rcases hrest with rfl | ⟨more, rfl⟩
      · exact .nil
      · exact ih (.block hout hclosed) (by simp [hwhole'])
    · have hblock := (mem_blockFragment_iff_isBlock hwhole' hout hrest hclosed).1 hf
      have hlt := Nat.lt_of_le_of_lt hblock.stop_le (hafter g hg)
      exact ⟨hlt.le, fun _ => hlt⟩
  | unclosed hline hrest hopens hnone =>
    rw [scanFrom_unclosed hline hrest hopens hnone]
    exact .nil

/-! ### Where widgets stand -/

section

variable {fence : Fence} {opening closing : List Char} {inner : List (List Char)}
  (h : IsBlock text cursor f fence before opening inner closing rest)

include h

theorem IsBlock.exists_break (hstart : f.start ≠ 0) :
    ∃ left right, text = left ++ '\n' :: right ∧ byteLength left = f.start - 1 := by
  rcases h.outside.begins with rfl | ⟨front, rfl⟩
  · exact absurd h.start hstart
  · refine ⟨front, blockText opening inner closing ++ rest, by rw [h.whole]; simp, ?_⟩
    rw [h.start, byteLength_append, byteLength_lineFeed, Nat.add_sub_cancel]

theorem IsBlock.isBoundary_front : IsBoundary text (f.start - 1) := by
  rcases Nat.eq_zero_or_pos f.start with hzero | hpos
  · rw [hzero]
    exact ⟨[], text, rfl, rfl⟩
  · obtain ⟨left, right, htext, hleft⟩ := h.exists_break hpos.ne'
    exact ⟨left, '\n' :: right, htext, hleft⟩

theorem IsBlock.exists_behind : ∃ piece behind, text = piece ++ behind ∧ f.stop = byteLength piece ∧
    (behind = [] ∨ ∃ c more, behind = c :: more ∧ c.utf8Size = 1) := by
  obtain ⟨ret, hblock, hreturn⟩ := exists_blockText_dropReturn opening inner closing
  refine ⟨before ++ blockText opening inner (dropReturn closing), ret ++ rest, ?_, h.stop, ?_⟩
  · rw [h.whole, hblock]
    simp only [List.append_assoc]
  · rcases hreturn with rfl | rfl
    · rcases h.ends with rfl | ⟨more, rfl⟩
      · exact Or.inl rfl
      · exact Or.inr ⟨'\n', more, rfl, rfl⟩
    · exact Or.inr ⟨'\x0d', rest, rfl, rfl⟩

/-- Behind a block is the end of the text, a line feed or a carriage return. -/
theorem IsBlock.isBoundary_back : IsBoundary text (min (f.stop + 1) (byteLength text)) := by
  obtain ⟨piece, behind, rfl, hstop, rfl | ⟨c, more, rfl, hc⟩⟩ := h.exists_behind
  · refine ⟨piece, [], rfl, ?_⟩
    rw [List.append_nil, hstop, Nat.min_eq_right (Nat.le_succ _)]
  · refine ⟨piece ++ [c], more, List.append_cons .., ?_⟩
    rw [byteLength_append, byteLength_append, byteLength, byteLength, byteLength, hc, ← hstop]
    omega

end

theorem start_lt_of_mem_scan {text : String} (hf : f ∈ scan text cursor) :
    f.start < f.stop ∧ f.stop ≤ text.utf8ByteSize := by
  obtain ⟨front, code, back, htext, hne, hstart, hstop⟩ := exists_code_of_mem_scan hf
  have hcode := byteLength_pos hne
  have hsize := congrArg byteLength htext
  rw [byteLength_toList, byteLength_append, ← hstop] at hsize
  rw [byteLength_append, ← hstart] at hstop
  omega

theorem standsIn_of_mem_scan {text : String} (hf : f ∈ scan text cursor) :
    (f.widget text.utf8ByteSize).StandsIn text.toList := by
  obtain ⟨hlt, hle⟩ := start_lt_of_mem_scan hf
  rw [← byteLength_toList] at hle ⊢
  rcases isFragment_of_mem_scan hf with ⟨_, _, _, _, _, _, _, hspan⟩ | ⟨_, _, _, _, _, _, hblock⟩
  · obtain ⟨front, code, back, htext, -, hstart, hstop⟩ := exists_code_of_mem_scan hf
    rw [Fragment.widget_of_inline hspan.isInline]
    exact ⟨hlt, hle, ⟨front, code ++ back, by rw [htext, List.append_assoc], hstart.symm⟩,
      ⟨front ++ code, back, htext, hstop.symm⟩⟩
  · rw [Fragment.widget_of_block (isInline_of_blockKind? hblock.kind)]
    refine ⟨?_, Nat.min_le_right .., hblock.isBoundary_front, hblock.isBoundary_back⟩
    dsimp only
    omega

theorem shareBreak_of_adjoins {text : String} (hg : g ∈ scan text cursor) (h : f.Adjoins g) :
    Widget.ShareBreak text.toList (f.widget text.utf8ByteSize) (g.widget text.utf8ByteSize) := by
  obtain ⟨hfk, hgk, hstart⟩ := h
  have hgs := start_lt_of_mem_scan hg
  rw [Fragment.widget_of_block hfk, Fragment.widget_of_block hgk]
  rcases isFragment_of_mem_scan hg with ⟨_, _, _, _, _, _, _, hspan⟩ | ⟨_, _, _, _, _, _, hblock⟩
  · rw [hspan.isInline] at hgk
    contradiction
  · refine ⟨⟨hfk, hgk⟩, ?_, hblock.exists_break (by omega)⟩
    dsimp only
    omega

theorem precedes_scan (text : String) (cursor : Option Nat) : (scan text cursor).Pairwise Fragment.Precedes :=
  scanFrom_precedes (divided text.toList) .start rfl

theorem stop_le_iff_not_adjoins (text : String) (cursor : Option Nat) :
    (scan text cursor).Pairwise fun f g =>
      (f.widget text.utf8ByteSize).stop ≤ (g.widget text.utf8ByteSize).start ↔ ¬ f.Adjoins g :=
  (precedes_scan text cursor).imp_of_mem fun hf hg h =>
    h.stop_le_iff (start_lt_of_mem_scan hf).1 (start_lt_of_mem_scan hg).1 (start_lt_of_mem_scan hg).2

theorem ordered_scan (text : String) (cursor : Option Nat) :
    Widget.Ordered text.toList ((scan text cursor).map fun f => f.widget text.utf8ByteSize) where
  inText := by
    intro w hw
    obtain ⟨f, hf, rfl⟩ := List.mem_map.1 hw
    exact standsIn_of_mem_scan hf
  increasing := List.pairwise_map.2 <| (precedes_scan text cursor).imp_of_mem fun hf hg h =>
    h.increasing (start_lt_of_mem_scan hf).1 (start_lt_of_mem_scan hg).1 (start_lt_of_mem_scan hg).2
  apart := List.pairwise_map.2 <| (stop_le_iff_not_adjoins text cursor).imp_of_mem fun {f g} _ hg h => by
    by_cases hadjoins : f.Adjoins g
    · exact Or.inr (shareBreak_of_adjoins hg hadjoins)
    · exact Or.inl (h.2 hadjoins)

end Document

namespace Editor

variable {V : Type} {page read : String} {size index : Nat} {pairs : List (Fragment × KeyDecision)} {g : ScopeGraph V}

/-! ### The widgets of a pass -/

theorem widgets_wire :
    ((wire page size index read pairs g).1.map RenderInstruction.widget).Sublist
      (pairs.map fun p => p.1.widget size) := by
  induction pairs generalizing index read g with
  | nil => exact List.Sublist.refl _
  | cons p rest ih =>
    obtain ⟨f, d⟩ := p
    rw [wire]
    dsimp only
    cases d.skip with
    | true => exact ih.cons _
    | false => exact ih.cons_cons _

theorem widgets_process (newKey : KeySource) (s : Editor) (g : ScopeGraph V) (view : EditorView) :
    ((s.process newKey g view).1.instructions.map RenderInstruction.widget).Sublist
      (view.found.map fun f => f.widget view.text.utf8ByteSize) := by
  by_cases h : view.found = []
  · rw [(process_of_empty newKey s g h).1]
    exact List.nil_sublist _
  · obtain ⟨path, -, heq⟩ := process_of_found newKey s g h
    have hzip : (view.found.zip (s.plan newKey view).decisions).map Prod.fst = view.found :=
      List.map_fst_zip (length_decisions newKey s view).ge
    rw [heq, ← hzip, List.map_map]
    exact widgets_wire

theorem ordered_found (view : EditorView) :
    Widget.Ordered view.text.toList (view.found.map fun f => f.widget view.text.utf8ByteSize) := by
  unfold EditorView.found
  split
  · exact Document.ordered_scan ..
  · exact ⟨nofun, .nil, .nil⟩

/-- The widgets for all fragments of a document, and so those of a pass, stand in its text one behind the other.
They are apart, but two blocks with a line feed alone between them share it. -/
theorem widgets_ordered (newKey : KeySource) (s : Editor) (g : ScopeGraph V) (view : EditorView) :
    Widget.Ordered view.text.toList
        ((Document.scan view.text view.cursor).map fun f => f.widget view.text.utf8ByteSize) ∧
      ((Document.scan view.text view.cursor).Pairwise fun f h =>
        (f.widget view.text.utf8ByteSize).stop ≤ (h.widget view.text.utf8ByteSize).start ↔ ¬ f.Adjoins h) ∧
      Widget.Ordered view.text.toList ((s.process newKey g view).1.instructions.map RenderInstruction.widget) :=
  ⟨Document.ordered_scan _ _, Document.stop_le_iff_not_adjoins _ _,
    (ordered_found view).sublist (widgets_process newKey s g view)⟩

/-- Two blocks in adjoining lines. -/
def adjoiningBlocks : EditorView := { file := some "a.md", text := "~~~ldsh\n~~~\n~~~ldsh\n~~~" }

/-- Both blocks take byte 11, so the ranges are not disjoint, neither those of the fragments nor those of a pass. -/
theorem adjoining_blocks_overlap :
    (Document.scan adjoiningBlocks.text none).map (fun f => f.decoration 23) = [(0, 12), (11, 23)] ∧
      ¬ ((Document.scan adjoiningBlocks.text none).Pairwise fun f g =>
        (f.decoration adjoiningBlocks.text.utf8ByteSize).2 ≤ (g.decoration adjoiningBlocks.text.utf8ByteSize).1 ∨
          (g.decoration adjoiningBlocks.text.utf8ByteSize).2 ≤ (f.decoration adjoiningBlocks.text.utf8ByteSize).1) ∧
      ¬ ((({} : Editor).process toString (ScopeGraph.new (V := Unit)) adjoiningBlocks).1.instructions.Pairwise
        fun i j => i.stop ≤ j.start ∨ j.stop ≤ i.start) := by
  decide +kernel

end Editor

end LiveNotes
