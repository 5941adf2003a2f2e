import LiveNotes.Proofs.Edit
import Mathlib.Data.List.Induction

/-! Edits as a splice of the text. What a list of edits makes of a text is read off place by place: what is put
there, and whether the character there stays. Lists of edits that do not get in each other's way are made so in any
order; of other lists those edits are made that a greedy choice in the order of their spans takes. -/

namespace LiveNotes.Edit

open Text

/-! ### The splice of edits, place by place -/

/-- The edit puts its text in at `pos` and replaces nothing. -/
def insertsAt (pos : Nat) (e : Edit) : Bool := e.start == pos && e.stop == pos

/-- The edit replaces bytes from `pos` on. -/
def replacesFrom (pos : Nat) (e : Edit) : Bool := e.start == pos && decide (pos < e.stop)

/-- The texts that edits put in at byte `pos`: what is inserted there stands in front of what replaces the bytes from
there on. -/
def textsAt (es : List Edit) (pos : Nat) : List Char :=
  (es.filter (insertsAt pos) ++ es.filter (replacesFrom pos)).flatMap fun e => e.text.toList

/-- Whether some edit replaces the byte at `pos`. -/
def isReplaced (es : List Edit) (pos : Nat) : Bool := es.any fun e => e.start ≤ pos && pos < e.stop

/-- The text that starts at byte `pos` with all edits made: the text of each stands in the place of its span, and
every character that is in no span stays. -/
def spliced (es : List Edit) : Nat → List Char → List Char
  | pos, [] => textsAt es pos
  | pos, c :: cs => textsAt es pos ++ (if isReplaced es pos then [] else [c]) ++ spliced es (pos + c.utf8Size) cs

variable {es ds : List Edit} {e d : Edit} {front rest old after text made : List Char} {pos size : Nat}

theorem textsAt_cons_of_ne (h : e.start ≠ pos) : textsAt (e :: es) pos = textsAt es pos := by
  have hinserts : insertsAt pos e = false := by simp [insertsAt, h]
  have hreplaces : replacesFrom pos e = false := by simp [replacesFrom, h]
  simp [textsAt, hinserts, hreplaces]

theorem textsAt_of_lt (h : ∀ e ∈ es, pos < e.start) : textsAt es pos = [] := by
  induction es with
  | nil => rfl
  | cons e es ih =>
    obtain ⟨he, hes⟩ := List.forall_mem_cons.1 h
    rw [textsAt_cons_of_ne (Nat.ne_of_gt he), ih hes]

theorem isReplaced_cons_of_le (h : e.stop ≤ pos) : isReplaced (e :: es) pos = isReplaced es pos := by
  simp [isReplaced, Nat.not_lt.2 h]

theorem isReplaced_of_lt (h : ∀ e ∈ es, pos < e.start) : isReplaced es pos = false := by
  rw [isReplaced, List.any_eq_false]
  intro e he
  simp [Nat.not_le.2 (h e he)]

/-- An edit that ends in front of a text does nothing to it. -/
theorem spliced_cons_of_lt (hstart : e.start < pos) (hstop : e.stop ≤ pos) :
    spliced (e :: es) pos text = spliced es pos text := by
  induction text generalizing pos with
  | nil => rw [spliced, spliced, textsAt_cons_of_ne (Nat.ne_of_lt hstart)]
  | cons c cs ih =>
    have hnext : spliced (e :: es) (pos + c.utf8Size) cs = spliced es (pos + c.utf8Size) cs :=
      ih (Nat.lt_add_right _ hstart) (Nat.le_add_right_of_le hstop)
    rw [spliced, spliced, textsAt_cons_of_ne (Nat.ne_of_lt hstart), isReplaced_cons_of_le hstop, hnext]

/-- What stands in front of all edits stays. -/
theorem spliced_append_of_le (h : ∀ e ∈ es, pos + byteLength front ≤ e.start) :
    spliced es pos (front ++ rest) = front ++ spliced es (pos + byteLength front) rest := by
  induction front generalizing pos with
  | nil => rfl
  | cons c front ih =>
    have hsize : pos + byteLength (c :: front) = pos + c.utf8Size + byteLength front := by
      rw [byteLength, Nat.add_assoc]
    have hlater : ∀ e ∈ es, pos < e.start := by
      intro e he
      have hle := h e he
      have hc := c.utf8Size_pos
      rw [hsize] at hle
      omega
    rw [hsize] at h ⊢
    rw [List.cons_append, spliced, textsAt_of_lt hlater, isReplaced_of_lt hlater, ih h]
    rfl

/-- The characters that an edit replaces, behind its first one, are gone. -/
theorem spliced_append_of_mem (hstart : e.start < pos) (hstop : pos + byteLength old = e.stop)
    (h : ∀ d ∈ es, e.stop ≤ d.start) : spliced (e :: es) pos (old ++ after) = spliced es e.stop after := by
  induction old generalizing pos with
  | nil =>
    obtain rfl : pos = e.stop := hstop
    exact spliced_cons_of_lt hstart (Nat.le_refl _)
  | cons c old ih =>
    have hc := c.utf8Size_pos
    have hsize : pos + c.utf8Size + byteLength old = e.stop := by rw [← hstop, byteLength, Nat.add_assoc]
    have hinside : pos < e.stop := by omega
    have htexts : textsAt (e :: es) pos = [] := by
      rw [textsAt_cons_of_ne (Nat.ne_of_lt hstart)]
      exact textsAt_of_lt fun d hd => Nat.lt_of_lt_of_le hinside (h d hd)
    have hgone : isReplaced (e :: es) pos = true := by
      simp [isReplaced, Nat.le_of_lt hstart, hinside]
    rw [List.cons_append, spliced, htexts, if_pos hgone, ih (Nat.lt_add_right _ hstart) hsize]
    rfl

/-- An edit that stands in front of the others puts its text in the place of what it replaces. -/
theorem spliced_cons_of_replaces (hstop : e.stop = e.start + byteLength old) (h : ∀ d ∈ es, e.stop ≤ d.start) :
    spliced (e :: es) e.start (old ++ after) = e.text.toList ++ spliced es e.stop after := by
  cases old with
  | nil =>
    -- an insertion stands in front of whatever the other edits put in at its place
    have hsame : e.stop = e.start := hstop
    have hinserts : insertsAt e.start e = true := by simp [insertsAt, hsame]
    have hreplaces : replacesFrom e.start e = false := by simp [replacesFrom, hsame]
    have htexts : textsAt (e :: es) e.start = e.text.toList ++ textsAt es e.start := by
      simp [textsAt, hinserts, hreplaces]
    rw [hsame, List.nil_append]
    cases after with
    | nil => rw [spliced, spliced, htexts]
    | cons c after =>
      have hbehind : e.start < e.start + c.utf8Size := Nat.lt_add_of_pos_right c.utf8Size_pos
      have hstop : e.stop ≤ e.start + c.utf8Size := Nat.le_trans (Nat.le_of_eq hsame) (Nat.le_of_lt hbehind)
      rw [spliced, spliced, htexts, isReplaced_cons_of_le (Nat.le_of_eq hsame), spliced_cons_of_lt hbehind hstop]
      simp only [List.append_assoc]
  | cons c old =>
    have hc := c.utf8Size_pos
    have hsize : e.start + c.utf8Size + byteLength old = e.stop := by rw [hstop, byteLength, Nat.add_assoc]
    have hinside : e.start < e.stop := by omega
    have hlater : ∀ d ∈ es, e.start < d.start := fun d hd => Nat.lt_of_lt_of_le hinside (h d hd)
    have hinserts : insertsAt e.start e = false := by simp [insertsAt, Nat.ne_of_gt hinside]
    have hreplaces : replacesFrom e.start e = true := by simp [replacesFrom, hinside]
    have hothers : textsAt es e.start = [] := textsAt_of_lt hlater
    have htexts : textsAt (e :: es) e.start = e.text.toList := by
      simp only [textsAt, List.flatMap_append, List.append_eq_nil_iff] at hothers
      simp [textsAt, hinserts, hreplaces, hothers.1, hothers.2]
    have hgone : isReplaced (e :: es) e.start = true := by simp [isReplaced, hinside]
    rw [List.cons_append, spliced, htexts, if_pos hgone,
      spliced_append_of_mem (Nat.lt_add_of_pos_right hc) hsize h, List.append_nil]

/-- Edits that are made one behind the other make the splice of them. -/
theorem spliced_of_makes (h : Makes pos es text made) (hapart : es.Pairwise fun a b => a.stop ≤ b.start) :
    spliced es pos text = made := by
  induction h with
  | done pos text =>
    have hnone : spliced [] pos (text ++ []) = text ++ [] := spliced_append_of_le fun _ he => by contradiction
    simpa using hnone
  | @edit pos e es before old after made hstart hstop rest ih =>
    obtain ⟨hbehind, hmore⟩ := List.pairwise_cons.1 hapart
    have hfront : ∀ d ∈ e :: es, pos + byteLength before ≤ d.start := by
      refine List.forall_mem_cons.2 ⟨Nat.le_of_eq hstart.symm, fun d hd => ?_⟩
      have hle := hbehind d hd
      omega
    rw [List.append_assoc, spliced_append_of_le hfront, ← hstart, spliced_cons_of_replaces hstop hbehind, ih hmore,
      List.append_assoc]

/-! ### The greedy choice -/

/-- The edits picked from a list, one after the other: each one is picked that does not start before the end of the
one picked last. -/
inductive Picks : List Edit → List Edit → Prop
  | nil : Picks [] []
  | take {es picked : List Edit} {e : Edit} (found : Picks es picked)
      (free : ∀ last ∈ picked.getLast?, last.stop ≤ e.start) : Picks (es ++ [e]) (picked ++ [e])
  | skip {es picked : List Edit} {e last : Edit} (found : Picks es picked) (behind : last ∈ picked.getLast?)
      (covered : e.start < last.stop) : Picks (es ++ [e]) picked

/-- The edits of a list by their start and then by their end; those with the same span are left in their order. -/
structure Sorts (es sorted : List Edit) : Prop where
  ordered : sorted.Pairwise fun a b => le a b = true
  stable : ∀ start stop : Nat, sorted.filter (fun e => e.start == start && e.stop == stop) =
    es.filter fun e => e.start == start && e.stop == stop

/-- The end of the last of some edits, or `pos` if there is none. -/
def endOf (pos : Nat) (es : List Edit) : Nat := (es.getLast?.map (·.stop)).getD pos

theorem endOf_cons (pos : Nat) (e : Edit) (es : List Edit) : endOf pos (e :: es) = endOf e.stop es := by
  cases es with
  | nil => rfl
  | cons d es => rw [endOf, endOf, List.getLast?_cons_cons, List.getLast?_cons, Option.map_some, Option.getD_some,
      Option.getD_some]

theorem keep_concat (h : e.stop ≤ size) (pos : Nat) (es : List Edit) :
    keep size pos (es ++ [e]) =
      keep size pos es ++ if e.start < endOf pos (keep size pos es) then [] else [e] := by
  induction es generalizing pos with
  | nil =>
    have hin : decide (size < e.stop) = false := decide_eq_false (Nat.not_lt.2 h)
    have hend : endOf pos [] = pos := rfl
    simp only [List.nil_append, keep, hin, hend, Bool.or_false, decide_eq_true_eq]
  | cons d es ih =>
    rw [List.cons_append, keep, keep]
    split
    · exact ih pos
    · rw [ih d.stop, endOf_cons, List.cons_append]

theorem picks_keep (h : ∀ e ∈ es, e.stop ≤ size) : Picks es (keep size 0 es) := by
  induction es using List.reverseRecOn with
  | nil => exact .nil
  | append_singleton es e ih =>
    have hfound : Picks es (keep size 0 es) := ih fun d hd => h d (List.mem_append_left _ hd)
    rw [keep_concat (h e (by simp)) 0 es]
    cases hlast : (keep size 0 es).getLast? with
    | none =>
      have hfree : ¬ e.start < endOf 0 (keep size 0 es) := by simp [endOf, hlast]
      rw [if_neg hfree]
      exact hfound.take fun last hmem => by simp [hlast] at hmem
    | some last =>
      have hend : endOf 0 (keep size 0 es) = last.stop := by simp [endOf, hlast]
      rw [hend]
      split
      · next hcovered =>
        rw [List.append_nil]
        exact hfound.skip hlast hcovered
      · next hfree =>
        refine hfound.take fun other hmem => ?_
        obtain rfl : last = other := Option.some.inj (hlast.symm.trans hmem)
        exact Nat.not_lt.1 hfree

theorem Picks.eq_keep {picked : List Edit} (hpicks : Picks es picked) (h : ∀ e ∈ es, e.stop ≤ size) :
    picked = keep size 0 es := by
  induction hpicks with
  | nil => rfl
  | @take es picked e found free ih =>
    have hkept := ih fun d hd => h d (List.mem_append_left _ hd)
    have hfree : ¬ e.start < endOf 0 (keep size 0 es) := by
      rw [← hkept]
      cases hlast : picked.getLast? with
      | none => simp [endOf, hlast]
      | some last => simpa [endOf, hlast] using free last hlast
    rw [keep_concat (h e (by simp)) 0 es, if_neg hfree, hkept]
  | @skip es picked e last found behind covered ih =>
    have hkept := ih fun d hd => h d (List.mem_append_left _ hd)
    have hend : endOf 0 (keep size 0 es) = last.stop := by
      rw [← hkept]
      simp [endOf, Option.mem_def.1 behind]
    rw [keep_concat (h e (by simp)) 0 es, if_pos (hend ▸ covered), List.append_nil, hkept]

theorem sorts_mergeSort (es : List Edit) : Sorts es (es.mergeSort le) := by
  refine ⟨List.pairwise_mergeSort le_trans le_total es, fun start stop => ?_⟩
  rw [filter_mergeSort]
  refine List.mergeSort_of_pairwise (List.pairwise_of_forall_mem_list fun a ha b hb => ?_)
  have ha := (List.mem_filter.1 ha).2
  have hb := (List.mem_filter.1 hb).2
  simp only [Bool.and_eq_true, beq_iff_eq] at ha hb
  simp [le, ha.1, ha.2, hb.1, hb.2]

/-- The first edit of a sorted list comes behind no edit that the list has. -/
theorem le_of_same {a b : Edit} {as bs : List Edit}
    (hsame : ∀ start stop : Nat, ((a :: as).filter fun e => e.start == start && e.stop == stop) =
      (b :: bs).filter fun e => e.start == start && e.stop == stop)
    (hfirst : ∀ e ∈ bs, le b e = true) : le b a = true := by
  have hmem : a ∈ b :: bs := by
    have hin : a ∈ (a :: as).filter fun e => e.start == a.start && e.stop == a.stop := by simp
    rw [hsame] at hin
    exact (List.mem_filter.1 hin).1
  rcases List.mem_cons.1 hmem with rfl | hmem
  · simp [le]
  · exact hfirst a hmem

/-- Two sorted lists with the same edits of each span are one. -/
theorem eq_of_sorts {as bs : List Edit} (ha : Sorts es as) (hb : Sorts es bs) : as = bs := by
  have hsame (start stop : Nat) := (ha.stable start stop).trans (hb.stable start stop).symm
  have hordered := ha.ordered
  have hordered' := hb.ordered
  clear ha hb
  induction as generalizing bs with
  | nil =>
    cases bs with
    | nil => rfl
    | cons b bs => simpa using hsame b.start b.stop
  | cons a as ih =>
    cases bs with
    | nil => simpa using hsame a.start a.stop
    | cons b bs =>
      obtain ⟨hfirst, hmore⟩ := List.pairwise_cons.1 hordered
      obtain ⟨hfirst', hmore'⟩ := List.pairwise_cons.1 hordered'
      have hba : le b a = true := le_of_same hsame hfirst'
      have hab : le a b = true := le_of_same (fun start stop => (hsame start stop).symm) hfirst
      simp only [le, Bool.or_eq_true, Bool.and_eq_true, decide_eq_true_eq, beq_iff_eq] at hab hba
      have hstart : b.start = a.start := by omega
      have hstop : b.stop = a.stop := by omega
      have hhead := hsame a.start a.stop
      rw [List.filter_cons_of_pos (by simp), List.filter_cons_of_pos (by simp [hstart, hstop])] at hhead
      obtain ⟨rfl, -⟩ := List.cons.inj hhead
      refine congrArg _ (ih (fun start stop => ?_) hmore hmore')
      have hboth := hsame start stop
      simp only [List.filter_cons] at hboth
      split at hboth
      · exact (List.cons.inj hboth).2
      · exact hboth

/-- Which edits are chosen: those that the greedy choice picks in the order of their spans. -/
theorem picks_iff_chosen {sorted picked : List Edit} (h : ∀ e ∈ es, e.stop ≤ size) (hsorted : Sorts es sorted) :
    Picks sorted picked ↔ picked = chosen size es := by
  obtain rfl : sorted = es.mergeSort le := eq_of_sorts hsorted (sorts_mergeSort es)
  have hin : ∀ e ∈ es.mergeSort le, e.stop ≤ size := fun e he => h e ((List.mergeSort_perm es le).subset he)
  constructor
  · intro hpicks
    exact hpicks.eq_keep hin
  · rintro rfl
    exact picks_keep hin

/-! ### Lists of edits that do not get in each other's way -/

/-- Edits of parts of a text, between characters, that lie apart from each other, no two of which are insertions at
one place. -/
structure Spliceable (source : String) (es : List Edit) : Prop where
  inText : ∀ e ∈ es, ∃ old, e.Replaces source.toList old
  apart : es.Pairwise Apart
  alone : es.Pairwise fun a b => ¬ (a.start = a.stop ∧ b.start = b.stop ∧ a.start = b.start)

theorem length_filter_le_one {p : Edit → Bool} (h : es.Pairwise fun a b => ¬ (p a = true ∧ p b = true)) :
    (es.filter p).length ≤ 1 := by
  have hfound := h.filter p
  cases hes : es.filter p with
  | nil => simp
  | cons a more =>
    cases more with
    | nil => simp
    | cons b more =>
      have hp (e : Edit) (he : e ∈ a :: b :: more) : p e = true := (List.mem_filter.1 (hes ▸ he)).2
      rw [hes] at hfound
      have hnot := (List.pairwise_cons.1 hfound).1 b List.mem_cons_self
      exact absurd ⟨hp a (by simp), hp b (by simp)⟩ hnot

/-- At most one edit of a list is inserted at a place, and one replaces the bytes from it on. -/
theorem Spliceable.length_filter_le {source : String} (h : Spliceable source es) (pos : Nat) :
    (es.filter (insertsAt pos)).length ≤ 1 ∧ (es.filter (replacesFrom pos)).length ≤ 1 := by
  constructor
  · refine length_filter_le_one (h.alone.imp fun hnot hboth => ?_)
    simp only [insertsAt, Bool.and_eq_true, beq_iff_eq] at hboth
    omega
  · refine length_filter_le_one (h.apart.imp fun hapart hboth => ?_)
    simp only [replacesFrom, Bool.and_eq_true, beq_iff_eq, decide_eq_true_eq] at hboth
    unfold Apart at hapart
    omega

theorem eq_of_perm_of_length_le {as bs : List Edit} (h : as.Perm bs) (hlength : as.length ≤ 1) : as = bs := by
  match as, hlength with
  | [], _ => exact h.nil_eq
  | [a], _ => exact (List.singleton_perm.1 h).symm ▸ rfl

theorem Spliceable.spliced_perm {source : String} (h : Spliceable source es) (hperm : es.Perm ds) (pos : Nat)
    (text : List Char) : spliced es pos text = spliced ds pos text := by
  have htexts (pos : Nat) : textsAt es pos = textsAt ds pos := by
    obtain ⟨hinserts, hreplaces⟩ := h.length_filter_le pos
    rw [textsAt, textsAt, eq_of_perm_of_length_le (hperm.filter _) hinserts,
      eq_of_perm_of_length_le (hperm.filter _) hreplaces]
  have hgone (pos : Nat) : isReplaced es pos = isReplaced ds pos := hperm.any_eq
  induction text generalizing pos with
  | nil => exact htexts pos
  | cons c cs ih => rw [spliced, spliced, htexts, hgone, ih]

/-- What edits make of a text is the splice of those that are chosen. -/
theorem apply_eq_spliced_chosen {source : String} (h : ∀ e ∈ es, ∃ old, e.Replaces source.toList old) :
    (apply source es).toList = spliced (chosen source.utf8ByteSize es) 0 source.toList := by
  have hle : ∀ e ∈ es.mergeSort le, e.start ≤ e.stop := fun e he =>
    (h e ((List.mergeSort_perm es le).subset he)).elim fun _ hold => hold.le
  have hbehind : (chosen source.utf8ByteSize es).Pairwise fun a b => a.stop ≤ b.start := (pairwise_keep hle 0).1
  have hmakes := makes_splice [] (fun _ _ => Nat.zero_le _) hbehind
    (fun e he => h e (mem_of_mem_chosen he) : ∀ e ∈ chosen source.utf8ByteSize es,
      ∃ old, e.Replaces ([] ++ source.toList) old)
  rw [apply, String.toList_ofList]
  exact (spliced_of_makes hmakes hbehind).symm

/-- Edits that do not get in each other's way are all made, whatever order they are given in: each span is replaced by
its text, and everything else stays. Of any edits within the text just those are made that the greedy choice picks in
the order of their starts and ends. -/
theorem apply_splices (source : String) (es : List Edit) :
    (Spliceable source es → ∀ ds, ds.Perm es → (apply source ds).toList = spliced es 0 source.toList) ∧
      ((∀ e ∈ es, e.stop ≤ source.utf8ByteSize) → ∀ sorted picked, Sorts es sorted →
        (Picks sorted picked ↔ picked = chosen source.utf8ByteSize es)) ∧
      ((∀ e ∈ es, ∃ old, e.Replaces source.toList old) →
        (apply source es).toList = spliced (chosen source.utf8ByteSize es) 0 source.toList) := by
  refine ⟨fun h ds hperm => ?_, fun h sorted picked hsorted => picks_iff_chosen h hsorted, apply_eq_spliced_chosen⟩
  have hin : ∀ e ∈ ds, ∃ old, e.Replaces source.toList old := fun e he => h.inText e (hperm.subset he)
  have hapart : ds.Pairwise Apart := (hperm.pairwise_iff fun h => Or.symm h).2 h.apart
  have hle : ∀ e ∈ ds, e.start ≤ e.stop := fun e he => (hin e he).elim fun _ hold => hold.le
  have hall : chosen source.utf8ByteSize ds = ds.mergeSort le := by
    refine keep_eq_self (fun _ _ => Nat.zero_le _) (fun e he => ?_) (pairwise_mergeSort_le hle hapart)
    obtain ⟨old, hold⟩ := hin e ((List.mergeSort_perm ds le).subset he)
    rw [← byteLength_toList]
    exact hold.stop_le
  have horder : es.Perm (ds.mergeSort le) := (hperm.symm).trans (List.mergeSort_perm ds le).symm
  rw [apply_eq_spliced_chosen hin, hall, h.spliced_perm horder]

theorem apply_splices_unsorted :
    let es : List Edit := [⟨1, 3, "x"⟩, ⟨1, 1, "("⟩]
    Spliceable "aäb" es ∧ (apply "aäb" es.reverse).toList = "a(xb".toList ∧
      (∀ e ∈ es, e.stop ≤ "aäb".utf8ByteSize) ∧ (Picks es.reverse es.reverse ↔ es.reverse = chosen 4 es) := by
  have hsplits : Spliceable "aäb" [⟨1, 3, "x"⟩, ⟨1, 1, "("⟩] := by
    refine ⟨?_, by simp [Apart], by simp⟩
    simp only [List.forall_mem_cons, List.not_mem_nil, false_imp_iff, implies_true, and_true]
    exact ⟨⟨['ä'], ['a'], ['b'], by decide, by decide, by decide⟩, [], ['a'], ['ä', 'b'], by decide, by decide, by decide⟩
  have hsize : ∀ e ∈ [(⟨1, 3, "x"⟩ : Edit), ⟨1, 1, "("⟩], e.stop ≤ "aäb".utf8ByteSize := by decide
  have hsorted : Sorts [⟨1, 3, "x"⟩, ⟨1, 1, "("⟩] [⟨1, 1, "("⟩, ⟨1, 3, "x"⟩] := by
    have hsorts := sorts_mergeSort [⟨1, 3, "x"⟩, ⟨1, 1, "("⟩]
    simpa [List.mergeSort, le] using hsorts
  have happly := apply_splices "aäb" [⟨1, 3, "x"⟩, ⟨1, 1, "("⟩]
  exact ⟨hsplits, (happly.1 hsplits _ (List.reverse_perm _)).trans (by decide), hsize, happly.2.1 hsize _ _ hsorted⟩

end LiveNotes.Edit
