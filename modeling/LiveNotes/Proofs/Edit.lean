import LiveNotes.Edit

/-! Edits that lie apart from each other are all made, and nothing else in the text changes. Where no edit reaches
over a place, the text in front of it and the text behind it are edited each on its own. -/

namespace LiveNotes

open Text

theorem Text.byteLength_toList (s : String) : byteLength s.toList = s.utf8ByteSize := by
  have hsize (cs : List Char) : byteLength cs = (cs.utf8Encode).size := by
    induction cs with
    | nil => rfl
    | cons c cs ih =>
      rw [List.utf8Encode_cons, ByteArray.size_append, List.utf8Encode_singleton, List.size_toByteArray,
        String.length_utf8EncodeChar, ← ih]
      rfl
  rw [hsize, ← String.toByteArray_ofList, String.ofList_toList]
  rfl

namespace Edit

/-- The edit puts its text in the place of `old`. -/
def Replaces (text : List Char) (e : Edit) (old : List Char) : Prop :=
  ∃ before after, text = before ++ old ++ after ∧ e.start = byteLength before ∧ e.stop = e.start + byteLength old

/-- One of two edits ends before the other starts. -/
def Apart (a b : Edit) : Prop := a.stop ≤ b.start ∨ b.stop ≤ a.start

/-- The text that starts at byte `pos` becomes the last one when the edits are made, one behind the other: what
they do not replace stays as it is. -/
inductive Makes : Nat → List Edit → List Char → List Char → Prop
  | done (pos : Nat) (text : List Char) : Makes pos [] text text
  | edit {pos : Nat} {e : Edit} {es : List Edit} {before old after made : List Char}
      (start : e.start = pos + byteLength before) (stop : e.stop = e.start + byteLength old)
      (rest : Makes e.stop es after made) :
      Makes pos (e :: es) (before ++ old ++ after) (before ++ e.text.toList ++ made)

variable {text front rest old : List Char} {es : List Edit} {e : Edit} {size : Nat}

theorem Replaces.stop_le (h : e.Replaces text old) : e.stop ≤ byteLength text := by
  obtain ⟨before, after, rfl, hstart, hstop⟩ := h
  simp only [byteLength_append]
  omega

theorem Replaces.le (h : e.Replaces text old) : e.start ≤ e.stop := by
  obtain ⟨_, _, _, _, hstop⟩ := h
  omega

/-- What an edit replaces that starts behind a part of the text. -/
theorem Replaces.exists_rest (h : e.Replaces (front ++ rest) old) (hfront : byteLength front ≤ e.start) :
    ∃ before after, rest = before ++ old ++ after ∧ e.start = byteLength front + byteLength before ∧
      e.stop = e.start + byteLength old := by
  obtain ⟨before, after, htext, hstart, hstop⟩ := h
  rw [List.append_assoc] at htext
  rcases List.append_eq_append_iff.1 htext with ⟨more, rfl, hrest⟩ | ⟨more, rfl, hrest⟩
  · refine ⟨more, after, ?_, ?_, hstop⟩
    · rw [hrest, List.append_assoc]
    · rw [hstart, byteLength_append]
  · have hmore : more = [] := by
      rw [byteLength_append] at hfront
      cases more with
      | nil => rfl
      | cons c cs =>
        have := c.utf8Size_pos
        simp only [byteLength] at hfront
        omega
    subst hmore
    refine ⟨[], after, ?_, ?_, hstop⟩
    · simpa using hrest.symm
    · simpa [byteLength] using hstart

/-- As `exists_rest`, where what the edit replaces ends in front of a last part of the text. -/
theorem Replaces.exists_front {lead : List Char} (h : e.Replaces (lead ++ front ++ rest) old)
    (hlead : byteLength lead ≤ e.start) (hstop : e.stop ≤ byteLength (lead ++ front)) :
    ∃ before more, front = before ++ old ++ more ∧ e.start = byteLength lead + byteLength before ∧
      e.stop = e.start + byteLength old := by
  rw [List.append_assoc] at h
  obtain ⟨before, after, hsplit, hstart, hend⟩ := h.exists_rest hlead
  rcases List.append_eq_append_iff.1 hsplit with ⟨more, hmore, -⟩ | ⟨more, hmore, -⟩
  · have hnil : more = [] := by
      have hsame := congrArg byteLength hmore
      rw [hend, hstart, byteLength_append] at hstop
      simp only [byteLength_append] at hsame
      cases more with
      | nil => rfl
      | cons c cs =>
        have := c.utf8Size_pos
        simp only [byteLength] at hsame
        omega
    subst hnil
    exact ⟨before, [], by simpa using hmore.symm, hstart, hend⟩
  · exact ⟨before, more, hmore, hstart, hend⟩

theorem Makes.eq_of_nil {pos : Nat} {made : List Char} (h : Makes pos [] text made) : made = text := by
  cases h
  rfl

/-- An edit is made where it stands, and those that follow it behind that. -/
theorem splice_cons {pos : Nat} {back : List Char} (hstart : e.start = pos + byteLength front)
    (hstop : e.stop = e.start + byteLength old) (es : List Edit) :
    splice pos (front ++ old ++ back) (e :: es) = front ++ e.text.toList ++ splice e.stop back es := by
  have hfront : splitAtByte (e.start - pos) (front ++ old ++ back) = (front, old ++ back) := by
    rw [hstart, Nat.add_sub_cancel_left, List.append_assoc, splitAtByte_byteLength]
  have hold : splitAtByte (e.stop - e.start) (old ++ back) = (old, back) := by
    rw [hstop, Nat.add_sub_cancel_left, splitAtByte_byteLength]
  simp only [splice, hfront, hold]

theorem makes_splice (front : List Char) (hfront : ∀ e ∈ es, byteLength front ≤ e.start)
    (hapart : es.Pairwise fun a b => a.stop ≤ b.start)
    (hold : ∀ e ∈ es, ∃ old, e.Replaces (front ++ rest) old) :
    Makes (byteLength front) es rest (splice (byteLength front) rest es) := by
  induction es generalizing front rest with
  | nil => exact .done _ _
  | cons e es ih =>
    simp only [List.forall_mem_cons, List.pairwise_cons] at hfront hapart hold
    obtain ⟨⟨old, he⟩, hold⟩ := hold
    obtain ⟨before, after, rfl, hstart, hstop⟩ := he.exists_rest hfront.1
    have hpassed : byteLength (front ++ before ++ old) = e.stop := by
      rw [byteLength_append, byteLength_append, hstop, hstart]
    have hrest : Makes (byteLength (front ++ before ++ old)) es after
        (splice (byteLength (front ++ before ++ old)) after es) :=
      ih _ (fun d hd => hpassed ▸ hapart.1 d hd) hapart.2 (by simpa using hold)
    rw [hpassed] at hrest
    rw [splice_cons hstart hstop]
    exact .edit hstart hstop hrest

/-- Edits that follow each other are all kept. -/
theorem keep_eq_self {pos : Nat} (hpos : ∀ e ∈ es, pos ≤ e.start) (hsize : ∀ e ∈ es, e.stop ≤ size)
    (hapart : es.Pairwise fun a b => a.stop ≤ b.start) : keep size pos es = es := by
  induction es generalizing pos with
  | nil => rfl
  | cons e es ih =>
    simp only [List.forall_mem_cons, List.pairwise_cons] at hpos hsize hapart
    have hkept : ¬(e.start < pos || size < e.stop) = true := by
      simp [hpos.1, hsize.1]
    rw [keep, if_neg hkept, ih hapart.1 hsize.2 hapart.2]

theorem le_trans (a b c : Edit) : le a b = true → le b c = true → le a c = true := by
  simp only [le, Bool.or_eq_true, Bool.and_eq_true, decide_eq_true_eq, beq_iff_eq]
  omega

theorem le_total (a b : Edit) : (le a b || le b a) = true := by
  simp only [le, Bool.or_eq_true, Bool.and_eq_true, decide_eq_true_eq, beq_iff_eq]
  omega

theorem pairwise_mergeSort_le (hle : ∀ e ∈ es, e.start ≤ e.stop) (hapart : es.Pairwise Apart) :
    (es.mergeSort le).Pairwise fun a b => a.stop ≤ b.start := by
  have hperm := List.mergeSort_perm es le
  have hsorted := List.pairwise_mergeSort le_trans le_total es
  have hboth := hsorted.and ((hperm.pairwise_iff (fun h => Or.symm h)).2 hapart)
  refine hboth.imp_of_mem fun {a b} ha hb h => ?_
  have ha := hle a (hperm.subset ha)
  have hb := hle b (hperm.subset hb)
  have hab := h.1
  have happart : a.stop ≤ b.start ∨ b.stop ≤ a.start := h.2
  simp only [le, Bool.or_eq_true, Bool.and_eq_true, decide_eq_true_eq, beq_iff_eq] at hab
  omega

/-- Edits that are in order are made in it. -/
theorem apply_of_pairwise {source : String} (h : es.Pairwise fun a b => le a b = true) :
    apply source es = String.ofList (splice 0 source.toList (keep source.utf8ByteSize 0 es)) := by
  rw [apply, chosen, List.mergeSort_of_pairwise h]

/-- Edits of parts of the text that lie apart from each other are all made. -/
theorem makes_apply {source : String} (hold : ∀ e ∈ es, ∃ old, e.Replaces source.toList old)
    (hapart : es.Pairwise Apart) :
    ∃ made : List Edit, made.Perm es ∧ Makes 0 made source.toList (apply source es).toList := by
  have hperm := List.mergeSort_perm es le
  have hbehind := pairwise_mergeSort_le (fun e he => (hold e he).elim fun _ h => h.le) hapart
  have hchosen : chosen source.utf8ByteSize es = es.mergeSort le := by
    refine keep_eq_self (fun _ _ => Nat.zero_le _) (fun e he => ?_) hbehind
    obtain ⟨old, hreplaces⟩ := hold e (hperm.subset he)
    rw [← byteLength_toList]
    exact hreplaces.stop_le
  refine ⟨es.mergeSort le, hperm, ?_⟩
  rw [apply, hchosen, String.toList_ofList]
  exact makes_splice [] (fun _ _ => Nat.zero_le _) hbehind fun e he => hold e (hperm.subset he)

/-! ### Parts of a text on their own -/

/-- The edit ends at byte `n` or in front of it. -/
def endsBy (n : Nat) (e : Edit) : Bool := e.stop ≤ n

/-- What edits make of the part of a text that starts at byte `start`. -/
def madeIn (start : Nat) (part : List Char) (es : List Edit) : List Char :=
  splice start part (chosen (start + byteLength part) es)

theorem toList_apply (source : String) (es : List Edit) : (apply source es).toList = madeIn 0 source.toList es := by
  rw [apply, madeIn, Nat.zero_add, byteLength_toList, String.toList_ofList]

@[simp] theorem madeIn_nil (start : Nat) (part : List Char) : madeIn start part [] = part := by
  simp [madeIn, chosen, keep, splice]

/-- One edit puts its text in the place of what it replaces. -/
theorem madeIn_singleton {start : Nat} {back : List Char} (hstart : e.start = start + byteLength front)
    (hstop : e.stop = e.start + byteLength old) :
    madeIn start (front ++ old ++ back) [e] = front ++ e.text.toList ++ back := by
  have hin : decide (start + byteLength (front ++ old ++ back) < e.stop) = false := by
    simp only [byteLength_append, decide_eq_false_iff_not]
    omega
  have hkept : keep (start + byteLength (front ++ old ++ back)) 0 [e] = [e] := by
    simp only [keep, Nat.not_lt_zero, decide_false, hin, Bool.or_self, Bool.false_eq_true, if_false]
  rw [madeIn, chosen, List.mergeSort_singleton, hkept, splice_cons hstart hstop, splice]

/-- Edits that satisfy a condition are sorted among others as they are on their own. -/
theorem filter_mergeSort (p : Edit → Bool) (es : List Edit) :
    (es.mergeSort le).filter p = (es.filter p).mergeSort le := by
  induction es with
  | nil => simp
  | cons e es ih =>
    obtain ⟨before, after, hmore, hsame, hbefore⟩ := List.mergeSort_cons le_trans le_total e es
    have hsorted := List.pairwise_mergeSort le_trans le_total (e :: es)
    rw [hmore, List.pairwise_append, List.pairwise_cons] at hsorted
    rw [hmore, List.filter_append, List.filter_cons]
    rw [hsame, List.filter_append] at ih
    by_cases he : p e
    · obtain ⟨before', after', hmore', hsame', hbefore'⟩ := List.mergeSort_cons le_trans le_total e (es.filter p)
      have hsorted' := List.pairwise_mergeSort le_trans le_total (e :: es.filter p)
      rw [hmore', List.pairwise_append, List.pairwise_cons] at hsorted'
      -- the edit stands in front of the first that it does not come behind
      have hcut {d : Edit} (hless : le e d = true) (hnot : (!le e d) = true) : False := by
        rw [hless] at hnot
        contradiction
      rw [List.filter_cons_of_pos he, hmore', if_pos he]
      rcases List.append_eq_append_iff.1 (ih.trans hsame') with ⟨between, hfront, hback⟩ | ⟨between, hfront, hback⟩
      · cases between with
        | nil => simp_all
        | cons d between =>
          have hd : d ∈ after.filter p := hback ▸ List.mem_cons_self
          exact (hcut (hsorted.2.1.1 d (List.mem_filter.1 hd).1) (hbefore' d (by simp [hfront]))).elim
      · cases between with
        | nil => simp_all
        | cons d between =>
          have hd : d ∈ before.filter p := hfront ▸ List.mem_append_right _ List.mem_cons_self
          exact (hcut (hsorted'.2.1.1 d (by simp [hback])) (hbefore d (List.mem_filter.1 hd).1)).elim
    · rw [if_neg he, List.filter_cons_of_neg he, ← ih]

/-- A sorted list is cut where a condition ends that what satisfies it is sorted in front by. -/
theorem filter_append_filter {p : Edit → Bool} (hsorted : es.Pairwise fun a b => le a b = true)
    (hless : ∀ a ∈ es, ∀ b ∈ es, p a = true → p b = false → le b a = false) :
    es.filter p ++ es.filter (!p ·) = es := by
  induction es with
  | nil => rfl
  | cons e es ih =>
    obtain ⟨hfirst, hsorted⟩ := List.pairwise_cons.1 hsorted
    have hrest := ih hsorted fun a ha b hb => hless a (List.mem_cons_of_mem e ha) b (List.mem_cons_of_mem e hb)
    cases he : p e with
    | true => rw [List.filter_cons_of_pos he, List.filter_cons_of_neg (by simp [he]), List.cons_append, hrest]
    | false =>
      have hnone : ∀ a ∈ es, p a = false := by
        intro a ha
        cases hp : p a with
        | false => rfl
        | true =>
          have hlater := hless a (List.mem_cons_of_mem e ha) e List.mem_cons_self hp he
          rw [hfirst a ha] at hlater
          contradiction
      have hempty : es.filter p = [] := List.filter_eq_nil_iff.2 fun a ha => by simp [hnone a ha]
      rw [List.filter_cons_of_neg (by simp [he]), List.filter_cons_of_pos (by simp [he]), hempty, List.nil_append]
      rw [hempty, List.nil_append] at hrest
      rw [hrest]

theorem keep_of_le {pos : Nat} (h : ∀ e ∈ es, pos ≤ e.start) : keep size pos es = keep size 0 es := by
  induction es with
  | nil => rfl
  | cons e es ih =>
    obtain ⟨he, hrest⟩ := List.forall_mem_cons.1 h
    have hpos : decide (e.start < pos) = false := by simpa using he
    have hzero : decide (e.start < 0) = false := by simp
    rw [keep, keep, hpos, hzero, ih hrest]

theorem keep_size {pos size' : Nat} (h : ∀ e ∈ es, e.stop ≤ size ∧ e.stop ≤ size') :
    keep size pos es = keep size' pos es := by
  induction es generalizing pos with
  | nil => rfl
  | cons e es ih =>
    obtain ⟨⟨hsize, hsize'⟩, hrest⟩ := List.forall_mem_cons.1 h
    have hin : decide (size < e.stop) = false := by simpa using hsize
    have hin' : decide (size' < e.stop) = false := by simpa using hsize'
    rw [keep, keep, hin, hin', ih hrest, ih hrest]

theorem keep_append {pos mid : Nat} {ds : List Edit} (hpos : pos ≤ mid) (hfront : ∀ e ∈ es, e.stop ≤ mid)
    (hback : ∀ d ∈ ds, mid ≤ d.start) : keep size pos (es ++ ds) = keep size pos es ++ keep size 0 ds := by
  induction es generalizing pos with
  | nil => exact keep_of_le fun d hd => Nat.le_trans hpos (hback d hd)
  | cons e es ih =>
    obtain ⟨he, hrest⟩ := List.forall_mem_cons.1 hfront
    rw [List.cons_append, keep, keep]
    split
    · exact ih hpos hrest
    · rw [ih he hrest, List.cons_append]

theorem splitAtByte_add (front rest : List Char) (n : Nat) : splitAtByte (byteLength front + n) (front ++ rest) =
    (front ++ (splitAtByte n rest).1, (splitAtByte n rest).2) := by
  induction front with
  | nil => simp [byteLength]
  | cons c front ih =>
    have hc := c.utf8Size_pos
    obtain ⟨k, hk⟩ : ∃ k, byteLength (c :: front) + n = k + 1 := ⟨byteLength (c :: front) + n - 1, by
      simp only [byteLength]
      omega⟩
    have hless : k + 1 - c.utf8Size = byteLength front + n := by
      simp only [byteLength] at hk
      omega
    rw [hk, List.cons_append, splitAtByte, hless, ih]
    rfl

/-- Edits of a front part and then of the rest, each of what it replaces in the text behind `lead`. -/
theorem splice_append {lead : List Char} {ds : List Edit} (hfront : ∀ e ∈ es, e.stop ≤ byteLength (lead ++ front))
    (hlead : ∀ e ∈ es, byteLength lead ≤ e.start) (hbehind : es.Pairwise fun a b => a.stop ≤ b.start)
    (hold : ∀ e ∈ es, ∃ old, e.Replaces (lead ++ front ++ rest) old)
    (hback : ∀ d ∈ ds, byteLength (lead ++ front) ≤ d.start) :
    splice (byteLength lead) (front ++ rest) (es ++ ds) =
      splice (byteLength lead) front es ++ splice (byteLength (lead ++ front)) rest ds := by
  induction es generalizing lead front with
  | nil =>
    cases ds with
    | nil => simp [splice]
    | cons d ds =>
      have hd := hback d List.mem_cons_self
      rw [byteLength_append] at hd
      have hsplit : d.start - byteLength lead = byteLength front + (d.start - byteLength (lead ++ front)) := by
        rw [byteLength_append]
        omega
      simp only [List.nil_append, splice, hsplit, splitAtByte_add, List.append_assoc]
  | cons e es ih =>
    simp only [List.forall_mem_cons, List.pairwise_cons] at hfront hlead hbehind hold
    obtain ⟨⟨old, he⟩, hold⟩ := hold
    obtain ⟨before, more, rfl, hstart, hstop⟩ := he.exists_front hlead.1 hfront.1
    have hpassed : byteLength (lead ++ before ++ old) = e.stop := by
      rw [byteLength_append, byteLength_append, hstop, hstart]
    have hnext : splice (byteLength (lead ++ before ++ old)) (more ++ rest) (es ++ ds) =
        splice (byteLength (lead ++ before ++ old)) more es ++
          splice (byteLength (lead ++ before ++ old ++ more)) rest ds := ih
      (fun d hd => by simpa [List.append_assoc] using hfront.2 d hd) (fun d hd => hpassed ▸ hbehind.1 d hd) hbehind.2
      (fun d hd => by simpa [List.append_assoc] using hold d hd)
      (fun d hd => by simpa [List.append_assoc] using hback d hd)
    rw [hpassed] at hnext
    have hwhole : byteLength (lead ++ (before ++ old ++ more)) = byteLength (lead ++ before ++ old ++ more) := by
      simp only [List.append_assoc]
    rw [List.append_assoc (before ++ old), List.cons_append, splice_cons hstart hstop, splice_cons hstart hstop, hwhole,
      hnext]
    simp only [List.append_assoc]

theorem pairwise_keep (hle : ∀ e ∈ es, e.start ≤ e.stop) (pos : Nat) :
    (keep size pos es).Pairwise (fun a b => a.stop ≤ b.start) ∧ ∀ e ∈ keep size pos es, pos ≤ e.start := by
  induction es generalizing pos with
  | nil => simp [keep]
  | cons e es ih =>
    obtain ⟨he, hrest⟩ := List.forall_mem_cons.1 hle
    rw [keep]
    split
    · exact ih hrest pos
    · next hkept =>
      obtain ⟨hbehind, hpos⟩ := ih hrest e.stop
      have hstart : pos ≤ e.start := by
        simp only [Bool.or_eq_true, decide_eq_true_eq, not_or, Nat.not_lt] at hkept
        exact hkept.1
      refine ⟨List.pairwise_cons.2 ⟨hpos, hbehind⟩, List.forall_mem_cons.2 ⟨hstart, fun d hd => ?_⟩⟩
      exact Nat.le_trans hstart (Nat.le_trans he (hpos d hd))

/-- Edits that do not reach over a place are sorted with those first that end by it. -/
theorem mergeSort_cut {n : Nat} (hle : ∀ e ∈ es, e.start ≤ e.stop) (hmid : ∀ e ∈ es, n < e.stop → n ≤ e.start) :
    es.mergeSort le = (es.filter (endsBy n)).mergeSort le ++ (es.filter (!endsBy n ·)).mergeSort le := by
  have hperm := List.mergeSort_perm es le
  rw [← filter_mergeSort, ← filter_mergeSort]
  refine (filter_append_filter (List.pairwise_mergeSort le_trans le_total es) fun a ha b hb hfront hback => ?_).symm
  simp only [endsBy, decide_eq_true_eq, decide_eq_false_iff_not, Nat.not_le] at hfront hback
  have ha' := hle a (hperm.subset ha)
  have hb' := hmid b (hperm.subset hb) hback
  simp only [le, Bool.or_eq_false_iff, Bool.and_eq_false_iff, decide_eq_false_iff_not, beq_eq_false_iff_ne]
  omega

theorem mem_sorted_endsBy {n : Nat} (h : e ∈ (es.filter (endsBy n)).mergeSort le) : e ∈ es ∧ e.stop ≤ n := by
  simpa [endsBy] using (List.mergeSort_perm _ le).subset h

theorem le_start_of_mem_sorted {n : Nat} (hmid : ∀ e ∈ es, n < e.stop → n ≤ e.start)
    (h : e ∈ (es.filter (!endsBy n ·)).mergeSort le) : n ≤ e.start := by
  obtain ⟨he, hback⟩ := List.mem_filter.1 ((List.mergeSort_perm _ le).subset h)
  exact hmid e he (by simpa [endsBy] using hback)

/-- Which edits are made on one side of a place does not depend on those on the other side. -/
theorem chosen_cut {n : Nat} (hn : n ≤ size) (hle : ∀ e ∈ es, e.start ≤ e.stop)
    (hmid : ∀ e ∈ es, n < e.stop → n ≤ e.start) :
    chosen size es = chosen n (es.filter (endsBy n)) ++ chosen size (es.filter (!endsBy n ·)) := by
  have hsize : keep size 0 ((es.filter (endsBy n)).mergeSort le) = keep n 0 ((es.filter (endsBy n)).mergeSort le) :=
    keep_size fun e he => ⟨Nat.le_trans (mem_sorted_endsBy he).2 hn, (mem_sorted_endsBy he).2⟩
  rw [chosen, mergeSort_cut hle hmid, keep_append (Nat.zero_le _) (fun e he => (mem_sorted_endsBy he).2)
    (fun e he => le_start_of_mem_sorted hmid he), hsize, chosen, chosen]

/-- Where no edit reaches over a place, the parts of the text in front of it and behind it are edited on their own. -/
theorem madeIn_append {lead : List Char} (hold : ∀ e ∈ es, ∃ old, e.Replaces (lead ++ front ++ rest) old)
    (hlead : ∀ e ∈ es, byteLength lead ≤ e.start)
    (hmid : ∀ e ∈ es, byteLength (lead ++ front) < e.stop → byteLength (lead ++ front) ≤ e.start) :
    madeIn (byteLength lead) (front ++ rest) es =
      madeIn (byteLength lead) front (es.filter (endsBy (byteLength (lead ++ front)))) ++
        madeIn (byteLength (lead ++ front)) rest (es.filter (!endsBy (byteLength (lead ++ front)) ·)) := by
  have hle : ∀ e ∈ es, e.start ≤ e.stop := fun e he => (hold e he).elim fun _ h => h.le
  have hsize : byteLength lead + byteLength (front ++ rest) = byteLength (lead ++ front) + byteLength rest := by
    simp only [byteLength_append, Nat.add_assoc]
  have hfront : ∀ e ∈ chosen (byteLength (lead ++ front)) (es.filter (endsBy (byteLength (lead ++ front)))),
      e ∈ es ∧ e.stop ≤ byteLength (lead ++ front) :=
    fun e he => mem_sorted_endsBy ((keep_sublist _ 0 _).subset he)
  have hbehind : (chosen (byteLength (lead ++ front)) (es.filter (endsBy (byteLength (lead ++ front))))).Pairwise
      fun a b => a.stop ≤ b.start := (pairwise_keep (fun e he => hle e (mem_sorted_endsBy he).1) 0).1
  rw [madeIn, hsize, chosen_cut (Nat.le_add_right _ _) hle hmid,
    splice_append (fun e he => (hfront e he).2) (fun e he => hlead e (hfront e he).1) hbehind
      (fun e he => hold e (hfront e he).1) ?_]
  · rw [madeIn, madeIn, ← byteLength_append lead front]
  · exact fun e he => le_start_of_mem_sorted hmid ((keep_sublist _ 0 _).subset he)

/-! ### Edits inside others -/

/-- The edit replaces a part of what another one replaces, and does not start with it. -/
def Inside (e d : Edit) : Prop := d.start < e.start ∧ e.start < e.stop ∧ e.stop ≤ d.stop

instance (e d : Edit) : Decidable (Inside e d) := inferInstanceAs (Decidable (_ ∧ _ ∧ _))

/-- Two edits lie apart from each other, or one of them inside the other. -/
def Nested (a b : Edit) : Prop := Apart a b ∨ Inside a b ∨ Inside b a

theorem Nested.symm {a b : Edit} (h : Nested a b) : Nested b a := h.imp Or.symm Or.symm

/-- Whether an edit lies inside none of a list. -/
def isOutermost (es : List Edit) (e : Edit) : Bool := es.all fun d => !decide (Inside e d)

theorem isOutermost_iff : isOutermost es e = true ↔ ∀ d ∈ es, ¬Inside e d := by simp [isOutermost]

/-- What is sorted behind an edit starts at its end or later, or lies inside it. -/
theorem Nested.of_le {a b : Edit} (h : Nested a b) (hle : le a b = true) (hb : b.start ≤ b.stop) :
    a.stop ≤ b.start ∨ Inside b a := by
  simp only [le, Bool.or_eq_true, Bool.and_eq_true, decide_eq_true_eq, beq_iff_eq] at hle
  rcases h with (happart | happart) | hinside | hinside
  · exact .inl happart
  · exact .inl (by omega)
  · have := hinside.1
    omega
  · exact .inr hinside

/-- Of sorted edits the outermost ones are kept, from `pos` on, over which none of them reaches. -/
theorem keep_eq_filter {pos : Nat} (hle : ∀ e ∈ es, e.start ≤ e.stop) (hsize : ∀ e ∈ es, e.stop ≤ size)
    (hsorted : es.Pairwise fun a b => le a b = true) (hnested : es.Pairwise Nested)
    (hpos : ∀ e ∈ es, pos ≤ e.start ∨ e.stop ≤ pos) :
    keep size pos es = es.filter fun e => decide (pos ≤ e.start) && isOutermost es e := by
  induction es generalizing pos with
  | nil => rfl
  | cons e es ih =>
    simp only [List.forall_mem_cons, List.pairwise_cons] at hle hsize hsorted hnested hpos
    have hcons (d : Edit) : isOutermost (e :: es) d = (!decide (Inside d e) && isOutermost es d) := rfl
    by_cases hstart : pos ≤ e.start
    · have hkept : ¬(e.start < pos || size < e.stop) = true := by simp [hstart, hsize.1]
      have hbehind : ∀ d ∈ es, e.stop ≤ d.start ∨ Inside d e := fun d hd =>
        (hnested.1 d hd).of_le (hsorted.1 d hd) (hle.2 d hd)
      have hfirst : isOutermost (e :: es) e = true := by
        refine isOutermost_iff.2 (List.forall_mem_cons.2 ⟨fun h => Nat.lt_irrefl _ h.1, fun d hd hinside => ?_⟩)
        have hbefore := hinside.1
        rcases hbehind d hd with hlater | hwithin
        · exact absurd hbefore (Nat.not_lt.2 (Nat.le_trans hle.1 hlater))
        · exact Nat.lt_asymm hbefore hwithin.1
      have hfound := ih hle.2 hsize.2 hsorted.2 hnested.2 fun d hd => (hbehind d hd).imp_right fun h => h.2.2
      rw [keep, if_neg hkept, List.filter_cons_of_pos (by simp [hstart, hfirst]), hfound]
      refine congrArg (e :: ·) (List.filter_congr fun d hd => ?_)
      have hcut : decide (e.stop ≤ d.start) = (decide (pos ≤ d.start) && !decide (Inside d e)) := by
        have hde := hbehind d hd
        have hlength := hle.1
        rw [Bool.eq_iff_iff]
        simp only [Bool.and_eq_true, Bool.not_eq_true', decide_eq_true_eq, decide_eq_false_iff_not]
        unfold Inside at hde ⊢
        omega
      rw [hcons, hcut, Bool.and_assoc]
    · have hdropped : (e.start < pos || size < e.stop) = true := by simp [Nat.lt_of_not_le hstart]
      rw [keep, if_pos hdropped, List.filter_cons_of_neg (by simp [hstart]),
        ih hle.2 hsize.2 hsorted.2 hnested.2 hpos.2]
      refine List.filter_congr fun d hd => ?_
      have hcut : decide (pos ≤ d.start) = (decide (pos ≤ d.start) && !decide (Inside d e)) := by
        have he := hpos.1
        rw [Bool.eq_iff_iff]
        simp only [Bool.and_eq_true, Bool.not_eq_true', decide_eq_true_eq, decide_eq_false_iff_not]
        unfold Inside
        omega
      rw [hcons, ← Bool.and_assoc, ← hcut]

/-- Of edits that nest those are made that lie inside no other one. -/
theorem makes_apply_outermost {source : String} (hold : ∀ e ∈ es, ∃ old, e.Replaces source.toList old)
    (hnested : es.Pairwise Nested) :
    ∃ made : List Edit, made.Perm (es.filter (isOutermost es)) ∧ Makes 0 made source.toList (apply source es).toList := by
  have hperm := List.mergeSort_perm es le
  have hsorted : ∀ e ∈ es.mergeSort le, ∃ old, e.Replaces source.toList old := fun e he => hold e (hperm.subset he)
  have hle : ∀ e ∈ es.mergeSort le, e.start ≤ e.stop := fun e he => (hsorted e he).elim fun _ h => h.le
  have hchosen : chosen source.utf8ByteSize es = (es.mergeSort le).filter (isOutermost (es.mergeSort le)) := by
    rw [chosen, keep_eq_filter hle (fun e he => ?_) (List.pairwise_mergeSort le_trans le_total es)
      ((hperm.pairwise_iff Nested.symm).2 hnested) fun e _ => .inl (Nat.zero_le _)]
    · simp
    · obtain ⟨old, hreplaces⟩ := hsorted e he
      rw [← byteLength_toList]
      exact hreplaces.stop_le
  have hsame : isOutermost (es.mergeSort le) = isOutermost es := funext fun e => by
    rw [Bool.eq_iff_iff, isOutermost_iff, isOutermost_iff]
    exact forall_congr' fun d => by rw [hperm.mem_iff]
  refine ⟨chosen source.utf8ByteSize es, ?_, ?_⟩
  · rw [hchosen, hsame]
    exact hperm.filter _
  · rw [apply, String.toList_ofList]
    refine makes_splice [] (fun _ _ => Nat.zero_le _) (pairwise_keep hle 0).1 fun e he => ?_
    exact hsorted e ((keep_sublist _ 0 _).subset he)

end Edit

end LiveNotes
