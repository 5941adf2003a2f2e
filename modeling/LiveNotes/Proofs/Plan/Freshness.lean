import LiveNotes.Proofs.Plan.Passes

/-! How old the key of a fragment may be. Keys are kept while the cursor is in an earlier fragment, and
the pass that keeps one remembers the fragment as it then is. So when the cursor is gone, a fragment may
show what was made from other code, and what follows statements may be older than they are. Both are
traced to the passes that bring them about, and happen in no other way. -/

namespace LiveNotes.Plan.Passes

variable {newKey : KeySource} {h : Passes} {i s t : Nat}

def CursorFree (h : Passes) : Prop := ∀ f ∈ h.now, f.cursorInside = false

/-- The code of a fragment changes in the last pass, with the cursor only before it. -/
def EditsBehindCursor (h : Passes) (i : Nat) : Prop :=
  Changed h.before h.now i ∧ cursorAt h.now i = false ∧ ∃ j < i, cursorAt h.now j = true

/-- A fragment has other code than when it was last renewed, from an edit behind the cursor. -/
def OutlivedByKey (h : Passes) (i : Nat) : Prop :=
  codeAt (h.renewal i).now i ≠ codeAt h.now i ∧
    ∃ c : Passes, c <:+ h ∧ EditsBehindCursor c i ∧ Stands h c i

/-- The last pass renews one fragment although the cursor keeps another one as it is, or although the
first one is not of statements. -/
def Outruns (h : Passes) (s t : Nat) : Prop :=
  h.Renews s ∧
    (Held h.now t ∨ statementsAt h.before s = false ∧ statementsAt h.now s = false)

instance (h : Passes) : Decidable (CursorFree h) :=
  inferInstanceAs (Decidable (∀ f ∈ h.now, f.cursorInside = false))

def strokes : KeySource := fun n => String.ofList (List.replicate n 'k')

theorem strokes_injective : Function.Injective strokes := by
  intro m n hmn
  simpa [strokes] using congrArg String.length hmn

def piece (kind : FragmentKind) (content : String) (cursorInside : Bool) : Fragment :=
  ⟨kind, 0, 0, content, none, cursorInside⟩

/-! ### The code of a key -/

theorem cursorAt_eq_false (hc : CursorFree h) (i : Nat) : cursorAt h.now i = false := by
  unfold cursorAt
  cases hf : h.now[i]? with
  | none => rfl
  | some f => exact hc f (List.mem_of_getElem? hf)

/-- A fragment has the code it was last renewed for, unless the cursor is in it or it was edited
behind the cursor since. -/
theorem same_code_or_edited (hi : i < h.now.length) :
    codeAt (h.renewal i).now i = codeAt h.now i ∨ cursorAt h.now i = true ∨
      ∃ c : Passes, c <:+ h ∧ EditsBehindCursor c i ∧ Stands h c i := by
  induction h with
  | nil => simp [now] at hi
  | cons fs past ih =>
    by_cases hr : Renewed (now past) fs i
    · rw [renewal, if_pos hr]
      exact Or.inl rfl
    rw [renewal, if_neg hr]
    cases hcur : cursorAt (now (fs :: past)) i with
    | true => exact Or.inr (Or.inl rfl)
    | false =>
      rcases ih (lt_length_of_not_renewed hr) with hsame | hbefore | ⟨c, hc, hedit, hstands⟩
      · by_cases hch : Changed (now past) fs i
        · -- A change that renews nothing is one that the cursor holds back.
          have hheld : Held fs i := by
            by_contra hheld
            exact hr (Or.inr (Or.inr ⟨hheld, Or.inl hch⟩))
          obtain ⟨j, hj, hcj⟩ := hheld
          have hne : j ≠ i := by
            rintro rfl
            exact Bool.false_ne_true (hcur.symm.trans hcj)
          refine Or.inr (Or.inr ⟨fs :: past, List.suffix_rfl, ⟨hch, hcur, j, ?_, hcj⟩, ?_⟩)
          · exact lt_of_le_of_ne hj hne
          · rw [stands_iff List.suffix_rfl (List.cons_ne_nil fs past), renewal, if_neg hr]
            exact renewal_suffix past i
        · exact Or.inl (hsame.trans (not_not.1 hch))
      · exact absurd (Or.inr (Or.inl ⟨hbefore, hcur⟩)) hr
      · refine Or.inr (Or.inr ⟨c, hc.trans (List.suffix_cons fs past), hedit, ?_⟩)
        intro k hk hk'
        rcases List.suffix_cons_iff.1 hk' with rfl | hk'
        · exact hr
        · exact hstands k hk hk'

/-- In a pass without the cursor, the key of a fragment was drawn for the code that the fragment has
now, except where that code comes from an edit behind the cursor which no pass since has answered. -/
theorem keyFrom_same_code_iff (hk : Function.Injective newKey) (hc : CursorFree h)
    (hi : i < h.now.length) :
    (∃ g, KeyFrom newKey h g i ∧ codeAt g.now i = codeAt h.now i) ↔ ¬ OutlivedByKey h i := by
  have hfrom : (∃ g, KeyFrom newKey h g i ∧ codeAt g.now i = codeAt h.now i) ↔
      codeAt (h.renewal i).now i = codeAt h.now i := by
    simp only [keyFrom_iff hk hi, exists_eq_left]
  rw [hfrom]
  constructor
  · exact fun hsame hout => hout.1 hsame
  · intro hout
    by_contra hne
    rcases same_code_or_edited hi with hsame | hcur | hedit
    · exact hne hsame
    · exact Bool.false_ne_true ((cursorAt_eq_false hc i).symm.trans hcur)
    · exact hout ⟨hne, hedit⟩

/-- A second expression is typed on the line of the first one, so that the markup of two blocks is now
found one place later; then the cursor leaves the line. -/
def expressionInserted : Passes :=
  [[piece .inlineExpression "a" false, piece .inlineExpression "x" false,
      piece .blockMarkup "b" false, piece .blockMarkup "c" false],
    [piece .inlineExpression "a" true, piece .inlineExpression "x" true,
      piece .blockMarkup "b" false, piece .blockMarkup "c" false],
    [piece .inlineExpression "a" false, piece .blockMarkup "b" false, piece .blockMarkup "c" false]]

theorem keyFrom_same_code_iff_inserted :
    Function.Injective strokes ∧ CursorFree expressionInserted ∧ 2 < expressionInserted.now.length ∧
      ((∃ g, KeyFrom strokes expressionInserted g 2 ∧
          codeAt g.now 2 = codeAt expressionInserted.now 2) ↔ ¬ OutlivedByKey expressionInserted 2) :=
  ⟨strokes_injective, by decide, by decide,
    keyFrom_same_code_iff strokes_injective (by decide) (by decide)⟩

/-- The first block goes on under the key that was drawn for the second one. -/
theorem key_of_other_code :
    Function.Injective strokes ∧ CursorFree expressionInserted ∧ 2 < expressionInserted.now.length ∧
      ¬ ∃ g, KeyFrom strokes expressionInserted g 2 ∧
        codeAt g.now 2 = codeAt expressionInserted.now 2 := by
  refine ⟨strokes_injective, by decide, by decide, ?_⟩
  rintro ⟨g, hg, hcode⟩
  rw [keyFrom_iff strokes_injective (by decide)] at hg
  subst hg
  exact absurd hcode (by decide)

/-! ### The order of keys -/

theorem renews_renewal (hi : i < h.now.length) : (h.renewal i).Renews i := by
  induction h with
  | nil => simp [now] at hi
  | cons fs past ih =>
    unfold renewal
    split
    · exact ⟨hi, ‹_›⟩
    · exact ih (lt_length_of_not_renewed ‹_›)

/-- A pass that renews a fragment but none of some later one. -/
theorem outruns_of_not_renewed (hst : s < t) (hs : h.Renews s)
    (ht : ¬ Renewed h.before h.now t) : Outruns h s t := by
  refine ⟨hs, or_iff_not_imp_left.2 fun hheld => ?_⟩
  simp only [Renewed, not_or, not_and, hheld, not_false_eq_true, true_implies] at ht
  obtain ⟨hlen, -, -, hstir⟩ := ht
  have hs' : ¬ Stirs h.before h.now s := fun h => hstir ⟨s, hst, h⟩
  have hchange : Left h.before h.now s ∨ Changed h.before h.now s ∧ ¬ Held h.now s := by
    rcases hs.2 with hnew | hleft | ⟨hfree, hchanged | ⟨j, hj, hstirs⟩⟩
    · omega
    · exact Or.inl hleft
    · exact Or.inr ⟨hchanged, hfree⟩
    · exact absurd ⟨j, hj.trans hst, hstirs⟩ hstir
  have hnone : ¬ (statementsAt h.before s = true ∨ statementsAt h.now s = true) :=
    fun htouch => hs' ⟨htouch, hchange⟩
  simpa only [not_or, Bool.not_eq_true] using hnone

/-- The key of a fragment is at least as new as that of an earlier one, except where a pass has renewed
the earlier one alone and none since has renewed the later one. -/
theorem keyFrom_order_iff (hk : Function.Injective newKey) (hst : s < t) (ht : t < h.now.length) :
    (∃ g k, KeyFrom newKey h g s ∧ KeyFrom newKey h k t ∧ g <:+ k) ↔
      ¬ ∃ c : Passes, c <:+ h ∧ Outruns c s t ∧ Stands h c t := by
  have hs : s < h.now.length := hst.trans ht
  have hfrom : (∃ g k, KeyFrom newKey h g s ∧ KeyFrom newKey h k t ∧ g <:+ k) ↔
      h.renewal s <:+ h.renewal t := by
    simp only [keyFrom_iff hk hs, keyFrom_iff hk ht, exists_eq_left, exists_and_left]
  rw [hfrom]
  constructor
  · rintro horder ⟨c, hc, hout, hstands⟩
    have hne : c ≠ [] := by
      rintro rfl
      exact absurd hout.1.1 (Nat.not_lt_zero s)
    have hkept : Stands h c s := (stands_iff hc hne).2 (horder.trans ((stands_iff hc hne).1 hstands))
    exact hkept c List.suffix_rfl hc hout.1.2
  · intro hnone
    by_contra horder
    -- The pass that last renewed the earlier fragment is the one to be found.
    have hrenews := renews_renewal hs
    have hne : h.renewal s ≠ [] := by
      intro hnil
      rw [hnil] at hrenews
      exact absurd hrenews.1 (Nat.not_lt_zero s)
    have hstands : Stands h (h.renewal s) t := by
      rw [stands_iff (renewal_suffix h s) hne]
      rcases List.suffix_or_suffix_of_suffix (renewal_suffix h t) (renewal_suffix h s) with hsub | hsub
      · obtain ⟨fs, past, hcons⟩ := List.exists_cons_of_ne_nil hne
        rw [hcons] at hsub horder ⊢
        rcases List.suffix_cons_iff.1 hsub with heq | hsub
        · exact absurd (heq ▸ List.suffix_rfl) horder
        · exact hsub
      · exact absurd hsub horder
    refine hnone ⟨h.renewal s, renewal_suffix h s, ?_, hstands⟩
    exact outruns_of_not_renewed hst hrenews (hstands _ List.suffix_rfl (renewal_suffix h s))

/-- The cursor moves from a block of statements into an expression behind it, and then leaves that. -/
def cursorMovedOn : Passes :=
  [[piece .blockStatement "s" false, piece .inlineExpression "a" false, piece .blockMarkup "b" false],
    [piece .blockStatement "s" false, piece .inlineExpression "a" true, piece .blockMarkup "b" false],
    [piece .blockStatement "s" true, piece .inlineExpression "a" false, piece .blockMarkup "b" false],
    [piece .blockStatement "s" false, piece .inlineExpression "a" false, piece .blockMarkup "b" false]]

theorem keyFrom_order_iff_moved :
    Function.Injective strokes ∧ 0 < 2 ∧ 2 < cursorMovedOn.now.length ∧
      ((∃ g k, KeyFrom strokes cursorMovedOn g 0 ∧ KeyFrom strokes cursorMovedOn k 2 ∧ g <:+ k) ↔
        ¬ ∃ c : Passes, c <:+ cursorMovedOn ∧ Outruns c 0 2 ∧ Stands cursorMovedOn c 2) :=
  ⟨strokes_injective, by decide, by decide,
    keyFrom_order_iff strokes_injective (by decide) (by decide)⟩

/-- The statements were evaluated anew and the block behind the expression never was. -/
theorem key_older_than_statements :
    Function.Injective strokes ∧ CursorFree cursorMovedOn ∧ 2 < cursorMovedOn.now.length ∧
      statementsAt cursorMovedOn.now 0 = true ∧
      ¬ ∃ g k, KeyFrom strokes cursorMovedOn g 0 ∧ KeyFrom strokes cursorMovedOn k 2 ∧ g <:+ k := by
  refine ⟨strokes_injective, by decide, by decide, by decide, ?_⟩
  rintro ⟨g, k, hg, hk, horder⟩
  rw [keyFrom_iff strokes_injective (by decide)] at hg hk
  subst hg hk
  exact absurd horder (by decide)

end LiveNotes.Plan.Passes
