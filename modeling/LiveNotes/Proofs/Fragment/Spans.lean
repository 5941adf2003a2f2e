import LiveNotes.Proofs.Fragment.Lines

/-! Code spans by the characters of a line: which of them are there depends on the widths of the runs of
backticks alone. A run begins a span exactly when nothing found before reaches over it and a run of the same
width follows; the span ends with the first of these. -/

namespace LiveNotes.Document

open Text

variable {lead rest inner cs : List Char} {w n at_ : Nat} {c : Char} {s : CodeSpan}

def ticks (w : Nat) : List Char := List.replicate w backtick

/-- Somewhere in a text there is a run of just `w` backticks. -/
def HasRun (w : Nat) (cs : List Char) : Prop :=
  ∃ left right, cs = left ++ ticks w ++ right ∧ left.getLast? ≠ some backtick ∧ right.head? ≠ some backtick

/-- A text between two runs of `w` backticks, in front of `rest`, has no such run itself. -/
structure Encloses (w : Nat) (inner rest : List Char) : Prop where
  pos : 0 < w
  ne_nil : inner ≠ []
  head : inner.head? ≠ some backtick
  last : inner.getLast? ≠ some backtick
  behind : rest.head? ≠ some backtick
  alone : ¬ HasRun w inner

def spanText (w : Nat) (inner : List Char) : List Char := ticks w ++ inner ++ ticks w

/-- No code span reaches over the place between two parts of a line. A run of backticks without a partner is
text. -/
inductive Free : List Char → List Char → Prop
  | start (rest : List Char) : Free [] rest
  | plain {lead rest : List Char} {c : Char} : Free lead (c :: rest) → c ≠ backtick → Free (lead ++ [c]) rest
  | lone {lead rest : List Char} {w : Nat} : Free lead (ticks w ++ rest) → 0 < w → rest.head? ≠ some backtick →
      ¬ HasRun w rest → Free (lead ++ ticks w) rest
  | span {lead inner rest : List Char} {w : Nat} : Free lead (spanText w inner ++ rest) → Encloses w inner rest →
      Free (lead ++ spanText w inner) rest

@[simp] theorem byteLength_ticks (w : Nat) : byteLength (ticks w) = w := by
  induction w with
  | zero => rfl
  | succ w ih =>
    have hone : backtick.utf8Size = 1 := rfl
    rw [ticks, List.replicate_succ, byteLength, ← ticks, ih, hone, Nat.add_comm]

theorem byteLength_spanText (w : Nat) (inner : List Char) :
    byteLength (spanText w inner) = w + byteLength inner + w := by
  rw [spanText, byteLength_append, byteLength_append, byteLength_ticks]

theorem spanText_ne_nil (h : Encloses w inner rest) : spanText w inner ≠ [] :=
  List.append_ne_nil_of_left_ne_nil (List.append_ne_nil_of_right_ne_nil _ h.ne_nil) _

/-! ### Runs of backticks -/

/-- A text as a sequence of runs of backticks and other characters. -/
inductive Runs : List Char → Prop
  | nil : Runs []
  | plain {c : Char} {cs : List Char} : c ≠ backtick → Runs cs → Runs (c :: cs)
  | run {n : Nat} {rest : List Char} : 0 < n → rest.head? ≠ some backtick → Runs rest → Runs (ticks n ++ rest)

theorem runs (cs : List Char) : Runs cs := by
  induction hlen : cs.length using Nat.strongRecOn generalizing cs with
  | ind size ih =>
    obtain ⟨n, rest, rfl, hrest⟩ := exists_run backtick cs
    rcases Nat.eq_zero_or_pos n with rfl | hn
    · cases rest with
      | nil => exact .nil
      | cons c rest =>
        have hc : c ≠ backtick := fun hc => hrest (congrArg some hc)
        exact .plain hc (ih rest.length (by simp [← hlen]) rest rfl)
    · refine .run hn hrest (ih rest.length ?_ rest rfl)
      simp only [← hlen, List.length_append, List.length_replicate]
      omega

theorem head?_ticks (hw : 0 < w) (cs : List Char) : (ticks w ++ cs).head? = some backtick := by
  obtain ⟨k, rfl⟩ : ∃ k, w = k + 1 := ⟨w - 1, by omega⟩
  rfl

theorem getLast?_cons_ne (hc : c ≠ backtick) (h : cs.getLast? ≠ some backtick) :
    (c :: cs).getLast? ≠ some backtick := by
  rw [List.getLast?_cons]
  cases hlast : cs.getLast? with
  | none => exact fun hd => hc (Option.some.inj hd)
  | some d => exact fun hd => h (hlast.trans hd)

theorem not_hasRun_nil (hw : 0 < w) : ¬ HasRun w [] := by
  rintro ⟨left, right, h, -, -⟩
  have hlen := congrArg List.length h
  simp only [ticks, List.length_nil, List.length_append, List.length_replicate] at hlen
  omega

theorem hasRun_cons (hw : 0 < w) (hc : c ≠ backtick) : HasRun w (c :: cs) ↔ HasRun w cs := by
  obtain ⟨k, rfl⟩ : ∃ k, w = k + 1 := ⟨w - 1, by omega⟩
  constructor
  · rintro ⟨left, right, h, hleft, hright⟩
    cases left with
    | nil => exact absurd (List.cons.inj h).1 hc
    | cons d left =>
      refine ⟨left, right, (List.cons.inj h).2, ?_, hright⟩
      intro hlast
      exact hleft (by rw [List.getLast?_cons, hlast]; rfl)
  · rintro ⟨left, right, rfl, hleft, hright⟩
    exact ⟨c :: left, right, rfl, getLast?_cons_ne hc hleft, hright⟩

theorem hasRun_run (hw : 0 < w) (hrest : rest.head? ≠ some backtick) :
    HasRun w (ticks n ++ rest) ↔ n = w ∨ HasRun w rest := by
  constructor
  · rintro ⟨left, right, h, hleft, hright⟩
    obtain ⟨k, tail, rfl, htail⟩ := exists_run backtick left
    rw [List.append_assoc, List.append_assoc] at h
    cases tail with
    | nil =>
      -- In front of the run there is nothing, or it would be longer.
      obtain rfl : k = 0 := by
        by_contra hk
        obtain ⟨j, rfl⟩ := Nat.exists_eq_succ_of_ne_zero hk
        exact hleft (by rw [List.append_nil, List.replicate_succ', List.getLast?_concat])
      exact Or.inl (run_inj hrest hright h).1
    | cons d tail =>
      have hhead : (d :: tail ++ (ticks w ++ right)).head? ≠ some backtick := htail
      obtain ⟨-, rfl⟩ := run_inj hrest hhead h
      refine Or.inr ⟨d :: tail, right, (List.append_assoc ..).symm, ?_, hright⟩
      rwa [List.getLast?_append_of_ne_nil _ (List.cons_ne_nil d tail)] at hleft
  · rintro (rfl | ⟨left, right, rfl, hleft, hright⟩)
    · exact ⟨[], rest, rfl, nofun, hrest⟩
    · have hne : left ≠ [] := by
        rintro rfl
        exact hrest (List.append_assoc .. ▸ head?_ticks hw right)
      refine ⟨ticks n ++ left, right, by simp only [List.append_assoc], ?_, hright⟩
      rwa [List.getLast?_append_of_ne_nil _ hne]

/-! ### Pieces -/

/-- The text and the pieces around the first run of just `w` backticks. -/
def cutAt (w : Nat) (cs : List Char) : Option (List Char × List Piece) :=
  (splitAtTicks w (pieces cs)).map fun (inner, rest) => (inner.flatMap Piece.text, rest)

theorem pieces_run (hn : 0 < n) (hrest : rest.head? ≠ some backtick) :
    pieces (ticks n ++ rest) = .ticks n :: pieces rest := by
  obtain ⟨k, rfl⟩ : ∃ k, n = k + 1 := ⟨n - 1, by omega⟩
  clear hn
  induction k with
  | zero =>
    have hhead : ∀ m ps, pieces rest ≠ .ticks m :: ps := by
      intro m ps
      cases rest with
      | nil => nofun
      | cons c rest =>
        have hc : c ≠ backtick := fun hc => hrest (congrArg some hc)
        rw [pieces, if_neg hc]
        split <;> nofun
    show pieces (backtick :: rest) = _
    rw [pieces, if_pos rfl]
    split
    · next hps => exact absurd hps (hhead _ _)
    · rfl
  | succ k ih =>
    show pieces (backtick :: (ticks (k + 1) ++ rest)) = _
    rw [pieces, if_pos rfl, ih]

theorem pieces_plain (hc : c ≠ backtick) (cs : List Char) :
    (∃ t ps, pieces cs = .plain t :: ps ∧ pieces (c :: cs) = .plain (c :: t) :: ps) ∨
      pieces (c :: cs) = .plain [c] :: pieces cs := by
  rw [pieces, if_neg hc]
  cases hps : pieces cs with
  | nil => exact Or.inr rfl
  | cons p ps =>
    cases p with
    | ticks n => exact Or.inr rfl
    | plain t => exact Or.inl ⟨t, ps, rfl, rfl⟩

theorem Piece.plain_ne_ticks (t : List Char) (w : Nat) : Piece.plain t ≠ Piece.ticks w := nofun

theorem cutAt_plain (hc : c ≠ backtick) (cs : List Char) :
    cutAt w (c :: cs) = (cutAt w cs).map (Prod.map (c :: ·) id) := by
  unfold cutAt
  rcases pieces_plain hc cs with ⟨t, ps, hcs, hccs⟩ | hccs
  · rw [hcs, hccs, splitAtTicks, splitAtTicks, if_neg (Piece.plain_ne_ticks _ _),
      if_neg (Piece.plain_ne_ticks _ _)]
    simp only [Option.map_map]
    rfl
  · rw [hccs, splitAtTicks, if_neg (Piece.plain_ne_ticks _ _)]
    simp only [Option.map_map]
    rfl

theorem cutAt_run (hn : 0 < n) (hrest : rest.head? ≠ some backtick) :
    cutAt w (ticks n ++ rest) =
      if n = w then some ([], pieces rest) else (cutAt w rest).map (Prod.map (ticks n ++ ·) id) := by
  unfold cutAt
  rw [pieces_run hn hrest, splitAtTicks]
  by_cases hnw : n = w
  · rw [if_pos (congrArg Piece.ticks hnw), if_pos hnw]
    rfl
  · rw [if_neg fun h => hnw (Piece.ticks.inj h), if_neg hnw]
    simp only [Option.map_map]
    rfl

/-- The first run of a width is found where there is one. -/
theorem cutAt_spec (hw : 0 < w) (cs : List Char) :
    (cutAt w cs = none ∧ ¬ HasRun w cs) ∨
      ∃ inner rest, cs = inner ++ ticks w ++ rest ∧ inner.getLast? ≠ some backtick ∧
        rest.head? ≠ some backtick ∧ ¬ HasRun w inner ∧ cutAt w cs = some (inner, pieces rest) := by
  induction runs cs with
  | nil => exact Or.inl ⟨rfl, not_hasRun_nil hw⟩
  | @plain c cs hc _ ih =>
    rw [cutAt_plain hc, hasRun_cons hw hc]
    rcases ih with ⟨hcut, hnone⟩ | ⟨inner, rest, rfl, hlast, hhead, halone, hcut⟩
    · exact Or.inl ⟨by rw [hcut]; rfl, hnone⟩
    · exact Or.inr ⟨c :: inner, rest, rfl, getLast?_cons_ne hc hlast, hhead, mt (hasRun_cons hw hc).1 halone,
        by rw [hcut]; rfl⟩
  | @run n rest hn hrest _ ih =>
    rw [cutAt_run hn hrest, hasRun_run hw hrest]
    by_cases hnw : n = w
    · subst hnw
      exact Or.inr ⟨[], rest, rfl, nofun, hrest, not_hasRun_nil hw, if_pos rfl⟩
    · rw [if_neg hnw]
      rcases ih with ⟨hcut, hnone⟩ | ⟨inner, more, rfl, hlast, hhead, halone, hcut⟩
      · exact Or.inl ⟨by rw [hcut]; rfl, fun h => h.elim hnw hnone⟩
      · -- the run in front is longer or shorter, and what is found starts behind it
        have hne : inner ≠ [] := by
          rintro rfl
          exact hrest (head?_ticks hw more)
        have hinner : inner.head? ≠ some backtick := by
          rwa [List.append_assoc, List.head?_append_of_ne_nil _ hne] at hrest
        refine Or.inr ⟨ticks n ++ inner, more, by simp only [List.append_assoc], ?_, hhead, ?_, by rw [hcut]; rfl⟩
        · rwa [List.getLast?_append_of_ne_nil _ hne]
        · rw [hasRun_run hw hinner]
          exact fun h => h.elim hnw halone

theorem cutAt_eq_none_iff (hw : 0 < w) (cs : List Char) : cutAt w cs = none ↔ ¬ HasRun w cs := by
  rcases cutAt_spec hw cs with ⟨hcut, hnone⟩ | ⟨inner, rest, rfl, hlast, hhead, -, hcut⟩
  · simp [hcut, hnone]
  · simp only [hcut, reduceCtorEq, false_iff, not_not]
    exact ⟨inner, rest, rfl, hlast, hhead⟩

theorem cutAt_of_encloses (h : Encloses w inner rest) :
    cutAt w (inner ++ ticks w ++ rest) = some (inner, pieces rest) := by
  obtain ⟨hw, -, -, hlast, hrest, halone⟩ := h
  induction runs inner with
  | nil => exact (cutAt_run hw hrest).trans (if_pos rfl)
  | @plain c cs hc _ ih =>
    have hcs : cs.getLast? ≠ some backtick := by
      intro hcs
      exact hlast (by rw [List.getLast?_cons, hcs]; rfl)
    have hcut := ih hcs (mt (hasRun_cons hw hc).2 halone)
    rw [List.cons_append, List.cons_append, cutAt_plain hc, hcut]
    rfl
  | @run n more hn hmore _ ih =>
    rw [hasRun_run hw hmore, not_or] at halone
    have hne : more ≠ [] := by
      rintro rfl
      obtain ⟨k, rfl⟩ : ∃ k, n = k + 1 := ⟨n - 1, by omega⟩
      exact hlast (by rw [List.append_nil, ticks, List.replicate_succ', List.getLast?_concat])
    rw [List.getLast?_append_of_ne_nil _ hne] at hlast
    have hhead : (more ++ ticks w ++ rest).head? ≠ some backtick := by
      rwa [List.append_assoc, List.head?_append_of_ne_nil _ hne]
    have hcut := ih hlast halone.2
    rw [List.append_assoc, List.append_assoc, ← List.append_assoc more, cutAt_run hn hhead, if_neg halone.1, hcut]
    rfl

/-! ### Spans -/

/-- The code spans of a text that starts at byte `at_`. -/
def spansFrom (at_ : Nat) (cs : List Char) : List CodeSpan := codeSpans at_ (pieces cs)

@[simp] theorem spansFrom_nil : spansFrom at_ [] = [] := by
  unfold spansFrom
  rw [pieces, codeSpans]

theorem spansFrom_plain (hc : c ≠ backtick) (cs : List Char) :
    spansFrom at_ (c :: cs) = spansFrom (at_ + c.utf8Size) cs := by
  unfold spansFrom
  rcases pieces_plain hc cs with ⟨t, ps, hcs, hccs⟩ | hccs
  · rw [hcs, hccs, codeSpans, codeSpans, byteLength, Nat.add_assoc]
  · rw [hccs, codeSpans]
    rfl

theorem spansFrom_run (hw : 0 < w) (hrest : rest.head? ≠ some backtick) :
    spansFrom at_ (ticks w ++ rest) =
      match cutAt w rest with
      | none => spansFrom (at_ + w) rest
      | some (inner, ps) =>
        ⟨at_, at_ + byteLength (spanText w inner), inner⟩ :: codeSpans (at_ + byteLength (spanText w inner)) ps := by
  unfold spansFrom cutAt
  rw [pieces_run hw hrest, codeSpans]
  split
  · next hnone => rw [hnone]; rfl
  · next inner ps hsome =>
    simp only [hsome, Option.map_some, byteLength_spanText, Nat.add_assoc]

theorem spansFrom_lone (hw : 0 < w) (hrest : rest.head? ≠ some backtick) (hnone : ¬ HasRun w rest) :
    spansFrom at_ (ticks w ++ rest) = spansFrom (at_ + w) rest := by
  rw [spansFrom_run hw hrest]
  rcases cutAt_spec hw rest with ⟨hcut, -⟩ | ⟨inner, more, rfl, hlast, hhead, -, -⟩
  · rw [hcut]
  · exact absurd ⟨inner, more, rfl, hlast, hhead⟩ hnone

theorem spansFrom_span (h : Encloses w inner rest) : spansFrom at_ (spanText w inner ++ rest) =
    ⟨at_, at_ + byteLength (spanText w inner), inner⟩ ::
      spansFrom (at_ + byteLength (spanText w inner)) rest := by
  have hhead : (inner ++ ticks w ++ rest).head? ≠ some backtick := by
    rw [List.append_assoc, List.head?_append_of_ne_nil _ h.ne_nil]
    exact h.head
  have hcut := cutAt_of_encloses h
  have htext : spanText w inner ++ rest = ticks w ++ (inner ++ ticks w ++ rest) := by
    simp only [spanText, List.append_assoc]
  rw [htext, spansFrom_run h.pos hhead, hcut]
  rfl

/-- A text read from its start: a character, a run of backticks that has no partner, or a span. -/
inductive Spanned : List Char → Prop
  | nil : Spanned []
  | plain {c : Char} {cs : List Char} : c ≠ backtick → Spanned cs → Spanned (c :: cs)
  | lone {w : Nat} {rest : List Char} : 0 < w → rest.head? ≠ some backtick → ¬ HasRun w rest → Spanned rest →
      Spanned (ticks w ++ rest)
  | span {w : Nat} {inner rest : List Char} : Encloses w inner rest → Spanned rest →
      Spanned (spanText w inner ++ rest)

theorem spanned (cs : List Char) : Spanned cs := by
  induction hlen : cs.length using Nat.strongRecOn generalizing cs with
  | ind size ih =>
    cases runs cs with
    | nil => exact .nil
    | @plain c cs hc _ => exact .plain hc (ih cs.length (by simp [← hlen]) cs rfl)
    | @run w rest hw hrest _ =>
      rw [List.length_append, ticks, List.length_replicate] at hlen
      rcases cutAt_spec hw rest with ⟨-, hnone⟩ | ⟨inner, more, rfl, hlast, hhead, halone, -⟩
      · exact .lone hw hrest hnone (ih rest.length (by omega) rest rfl)
      · have hne : inner ≠ [] := by
          rintro rfl
          exact hrest (head?_ticks hw more)
        rw [List.append_assoc, List.head?_append_of_ne_nil _ hne] at hrest
        rw [← List.append_assoc, ← List.append_assoc]
        simp only [List.length_append] at hlen
        exact .span ⟨hw, hne, hrest, hlast, hhead, halone⟩ (ih more.length (by omega) more rfl)

theorem exists_spansFrom_of_free (h : Free lead rest) (at_ : Nat) :
    ∃ found, spansFrom at_ (lead ++ rest) = found ++ spansFrom (at_ + byteLength lead) rest := by
  induction h with
  | start rest => exact ⟨[], rfl⟩
  | @plain lead rest c _ hc ih =>
    obtain ⟨found, hfound⟩ := ih
    refine ⟨found, ?_⟩
    rw [List.append_assoc, List.singleton_append, hfound, spansFrom_plain hc, byteLength_append, ← Nat.add_assoc]
    rfl
  | @lone lead rest w _ hw hrest hnone ih =>
    obtain ⟨found, hfound⟩ := ih
    refine ⟨found, ?_⟩
    rw [List.append_assoc, hfound, spansFrom_lone hw hrest hnone, byteLength_append, byteLength_ticks,
      ← Nat.add_assoc]
  | @span lead inner rest w _ hspan ih =>
    obtain ⟨found, hfound⟩ := ih
    rw [List.append_assoc, hfound, spansFrom_span hspan, byteLength_append, ← Nat.add_assoc]
    exact ⟨_, List.append_cons ..⟩

theorem exists_free_of_mem (hcs : Spanned cs) (hlead : Free lead cs)
    (hs : s ∈ spansFrom (at_ + byteLength lead) cs) :
    ∃ front w inner rest, lead ++ cs = front ++ spanText w inner ++ rest ∧
      Free front (spanText w inner ++ rest) ∧ Encloses w inner rest ∧
      s = ⟨at_ + byteLength front, at_ + byteLength (front ++ spanText w inner), inner⟩ := by
  induction hcs generalizing lead with
  | nil => simp at hs
  | @plain c cs hc _ ih =>
    rw [spansFrom_plain hc] at hs
    have hnext := ih (.plain hlead hc) (by rwa [byteLength_append, ← Nat.add_assoc])
    rwa [List.append_assoc] at hnext
  | @lone w rest hw hrest hnone _ ih =>
    rw [spansFrom_lone hw hrest hnone] at hs
    have hnext := ih (.lone hlead hw hrest hnone) (by rwa [byteLength_append, byteLength_ticks, ← Nat.add_assoc])
    rwa [List.append_assoc] at hnext
  | @span w inner rest hspan _ ih =>
    rw [spansFrom_span hspan] at hs
    rcases List.mem_cons.1 hs with rfl | hs
    · refine ⟨lead, w, inner, rest, (List.append_assoc ..).symm, hlead, hspan, ?_⟩
      rw [byteLength_append, ← Nat.add_assoc]
    · have hnext := ih (.span hlead hspan) (by rwa [byteLength_append, ← Nat.add_assoc])
      rwa [List.append_assoc] at hnext

/-- The code spans of a text are the spans at the places that no span reaches over. -/
theorem mem_spansFrom_iff : s ∈ spansFrom at_ cs ↔
    ∃ lead w inner rest, cs = lead ++ spanText w inner ++ rest ∧ Free lead (spanText w inner ++ rest) ∧
      Encloses w inner rest ∧ s = ⟨at_ + byteLength lead, at_ + byteLength (lead ++ spanText w inner), inner⟩ := by
  constructor
  · intro hs
    exact exists_free_of_mem (spanned cs) (Free.start cs) hs
  · rintro ⟨lead, w, inner, rest, rfl, hlead, hspan, rfl⟩
    obtain ⟨found, hfound⟩ := exists_spansFrom_of_free hlead at_
    rw [List.append_assoc, hfound, spansFrom_span hspan, byteLength_append, ← Nat.add_assoc]
    exact List.mem_append_right _ List.mem_cons_self

theorem spansFrom_inOrder (hcs : Spanned cs) (at_ : Nat) :
    (∀ s ∈ spansFrom at_ cs, at_ ≤ s.start) ∧ (spansFrom at_ cs).Pairwise fun a b => a.stop ≤ b.start := by
  induction hcs generalizing at_ with
  | nil => simp
  | @plain c cs hc _ ih =>
    rw [spansFrom_plain hc]
    obtain ⟨hle, hpairs⟩ := ih (at_ + c.utf8Size)
    exact ⟨fun s hs => Nat.le_trans (Nat.le_add_right ..) (hle s hs), hpairs⟩
  | @lone w rest hw hrest hnone _ ih =>
    rw [spansFrom_lone hw hrest hnone]
    obtain ⟨hle, hpairs⟩ := ih (at_ + w)
    exact ⟨fun s hs => Nat.le_trans (Nat.le_add_right ..) (hle s hs), hpairs⟩
  | @span w inner rest hspan _ ih =>
    rw [spansFrom_span hspan]
    obtain ⟨hle, hpairs⟩ := ih (at_ + byteLength (spanText w inner))
    refine ⟨List.forall_mem_cons.2 ⟨Nat.le_refl _, fun s hs => Nat.le_trans (Nat.le_add_right ..) (hle s hs)⟩, ?_⟩
    exact List.pairwise_cons.2 ⟨hle, hpairs⟩

end LiveNotes.Document
