import LiveNotes.Vault.Path
import LiveNotes.Vault.Store
import Mathlib.Data.List.Basic
import Mathlib.Data.List.Chain

/-! Paths by their segments. A path that is put together from segments without slashes falls into them
again, and what is left of it by `normalize` can be read off them. In the tree that a folder is in, a
path that never goes up leads to a place below the folder, and two different plain paths lead to two
places. -/

namespace LiveNotes.Text

variable {sep : Char} {cs : List Char}

theorem splitChar_of_not_mem (h : sep ∉ cs) : splitChar sep cs = [cs] := by
  induction cs with
  | nil => rfl
  | cons c cs ih =>
    obtain ⟨hc, hcs⟩ := not_or.1 (mt List.mem_cons.2 h)
    rw [splitChar, if_neg (Ne.symm hc), ih hcs]

theorem splitChar_append (h : sep ∉ cs) (rest : List Char) :
    splitChar sep (cs ++ sep :: rest) = cs :: splitChar sep rest := by
  induction cs with
  | nil => simp [splitChar]
  | cons c cs ih =>
    obtain ⟨hc, hcs⟩ := not_or.1 (mt List.mem_cons.2 h)
    rw [List.cons_append, splitChar, if_neg (Ne.symm hc), ih hcs]

theorem not_mem_of_mem_splitChar {piece : List Char} (h : piece ∈ splitChar sep cs) : sep ∉ piece := by
  induction cs generalizing piece with
  | nil => simp_all [splitChar]
  | cons c cs ih =>
    by_cases hc : c = sep
    · rw [splitChar, if_pos hc] at h
      rcases List.mem_cons.1 h with rfl | h
      · exact List.not_mem_nil
      · exact ih h
    · rw [splitChar, if_neg hc] at h
      cases hs : splitChar sep cs with
      | nil => exact absurd hs (splitChar_ne_nil sep cs)
      | cons p ps =>
        rw [hs] at h ih
        rcases List.mem_cons.1 h with rfl | h
        · exact fun hmem => (List.mem_cons.1 hmem).elim (Ne.symm hc) (ih List.mem_cons_self)
        · exact ih (List.mem_cons_of_mem _ h)

theorem not_mem_of_mem_split {s piece : String} (h : piece ∈ split sep s) : sep ∉ piece.toList := by
  obtain ⟨p, hp, rfl⟩ := List.mem_map.1 h
  rw [String.toList_ofList]
  exact not_mem_of_mem_splitChar hp

theorem hasPrefix_iff {start s : String} : hasPrefix start s = true ↔ ∃ rest, s = start ++ rest := by
  rw [hasPrefix, List.isPrefixOf_iff_prefix]
  constructor
  · rintro ⟨rest, hrest⟩
    exact ⟨String.ofList rest, String.toList_injective (by rw [← hrest, String.toList_append, String.toList_ofList])⟩
  · rintro ⟨rest, rfl⟩
    rw [String.toList_append]
    exact List.prefix_append ..

theorem dropEnd_of_getLast? {p : Char → Bool} (h : ∀ c, cs.getLast? = some c → p c = false) :
    dropEnd p cs = cs := by
  have hhead : ∀ c, cs.reverse.head? = some c → p c = false := fun c hc => h c (List.head?_reverse ▸ hc)
  cases hcs : cs.reverse with
  | nil => rw [dropEnd, hcs, List.dropWhile_nil, ← hcs, List.reverse_reverse]
  | cons c rest =>
    have hc : p c = false := hhead c (by rw [hcs]; rfl)
    rw [dropEnd, hcs, List.dropWhile_cons_of_neg (by simp [hc]), ← hcs, List.reverse_reverse]

theorem trimBoth_eq_self {p : Char → Bool} (h : ∀ c ∈ cs, p c = false) : trimBoth p cs = cs := by
  have hstart : cs.dropWhile p = cs := by
    cases cs with
    | nil => rfl
    | cons c cs => exact List.dropWhile_cons_of_neg (by simp [h c List.mem_cons_self])
  rw [trimBoth, hstart]
  exact dropEnd_of_getLast? fun c hc => h c (List.mem_of_getLast? hc)

theorem dropEnd_subset (p : Char → Bool) (cs : List Char) : dropEnd p cs ⊆ cs := by
  intro c hc
  exact List.mem_reverse.1 ((List.dropWhile_sublist p).subset (List.mem_reverse.1 hc))

theorem length_dropEnd_le (p : Char → Bool) (cs : List Char) : (dropEnd p cs).length ≤ cs.length := by
  rw [dropEnd, List.length_reverse]
  exact Nat.le_trans (List.dropWhile_sublist p).length_le (Nat.le_of_eq List.length_reverse)

theorem isPrefix_dropEnd (p : Char → Bool) (cs : List Char) : dropEnd p cs <+: cs := by
  rw [dropEnd, ← List.reverse_suffix, List.reverse_reverse]
  exact List.dropWhile_suffix p

theorem of_getLast?_dropEnd {p : Char → Bool} {cs : List Char} {c : Char}
    (h : (dropEnd p cs).getLast? = some c) : p c = false := by
  rw [dropEnd, List.getLast?_reverse] at h
  have hhead := List.head?_dropWhile_not p cs.reverse
  rw [h] at hhead
  exact hhead

theorem eq_nil_of_slash {c s t : List Char} (hs : '/' ∉ s) (h : '/' :: s = c ++ '/' :: t) : c = [] := by
  cases c with
  | nil => rfl
  | cons x c =>
    have hmem : '/' ∈ s := by
      rw [(List.cons.inj h).2]
      simp
    exact absurd hmem hs

theorem eq_of_append_slash {a b s t : List Char} (hs : '/' ∉ s) (ht : '/' ∉ t)
    (h : a ++ '/' :: s = b ++ '/' :: t) : a = b := by
  rcases List.append_eq_append_iff.1 h with ⟨c, rfl, hrest⟩ | ⟨c, rfl, hrest⟩
  · rw [eq_nil_of_slash hs hrest, List.append_nil]
  · rw [eq_nil_of_slash ht hrest, List.append_nil]

end LiveNotes.Text

namespace LiveNotes.Path

open Text

variable {segments : List String} {path s : String}

/-- What may stand between two slashes. -/
def IsSegment (s : String) : Prop := s ≠ "" ∧ '/' ∉ s.toList

/-- A segment that names a file or folder in the one it stands behind. -/
def IsName (s : String) : Prop := IsSegment s ∧ s ≠ "." ∧ s ≠ ".."

instance (s : String) : Decidable (IsName s) :=
  inferInstanceAs (Decidable ((s ≠ "" ∧ '/' ∉ s.toList) ∧ s ≠ "." ∧ s ≠ ".."))

/-- A path of nothing but names. -/
def IsPlain (path : String) : Prop := ∃ names, (∀ n ∈ names, IsName n) ∧ path = "/".intercalate names

/-- A path that never goes up. -/
def StaysBelow (path : String) : Prop := ".." ∉ split '/' path

instance (path : String) : Decidable (StaysBelow path) := inferInstanceAs (Decidable (".." ∉ split '/' path))

/-! ### Segments and the path of them -/

theorem toList_intercalate_cons (s t : String) (rest : List String) :
    ("/".intercalate (s :: t :: rest)).toList = s.toList ++ '/' :: ("/".intercalate (t :: rest)).toList := by
  simp [String.intercalate_cons_cons]

theorem split_intercalate (h : ∀ s ∈ segments, '/' ∉ s.toList) (hne : segments ≠ []) :
    split '/' ("/".intercalate segments) = segments := by
  induction segments with
  | nil => contradiction
  | cons s more ih =>
    obtain ⟨hs, hmore⟩ := List.forall_mem_cons.1 h
    cases more with
    | nil =>
      rw [String.intercalate_singleton, split, splitChar_of_not_mem hs]
      simp
    | cons t rest =>
      have hrest := ih hmore (List.cons_ne_nil t rest)
      rw [split] at hrest
      rw [split, toList_intercalate_cons, splitChar_append hs, List.map_cons, hrest, String.ofList_toList]

theorem mem_split_intercalate (h : ∀ s ∈ segments, '/' ∉ s.toList) (hs : s ∈ split '/' ("/".intercalate segments)) :
    s ∈ segments ∨ s = "" := by
  cases segments with
  | nil => exact Or.inr (by simpa [split, splitChar] using hs)
  | cons t rest =>
    rw [split_intercalate h (List.cons_ne_nil t rest)] at hs
    exact Or.inl hs

theorem isPlain_intercalate (h : ∀ n ∈ segments, IsName n) : IsPlain ("/".intercalate segments) := ⟨segments, h, rfl⟩

theorem filter_split_intercalate (h : ∀ n ∈ segments, IsName n) :
    ((split '/' ("/".intercalate segments)).filter fun p => p != "" && p != ".") = segments := by
  cases segments with
  | nil => rfl
  | cons n rest =>
    rw [split_intercalate (fun n hn => (h n hn).1.2) (List.cons_ne_nil n rest), List.filter_eq_self]
    intro n hn
    obtain ⟨⟨hempty, -⟩, hdot, -⟩ := h n hn
    simp [hempty, hdot]

/-- What is put behind a path goes to its last segment. -/
theorem intercalate_concat_append (segments : List String) (last s : String) :
    "/".intercalate (segments ++ [last]) ++ s = "/".intercalate (segments ++ [last ++ s]) := by
  cases segments with
  | nil => simp [String.intercalate_singleton]
  | cons t rest =>
    have hne : t :: rest ≠ [] := List.cons_ne_nil t rest
    rw [String.intercalate_append_of_ne_nil hne (List.cons_ne_nil _ _), String.intercalate_append_of_ne_nil hne
      (List.cons_ne_nil _ _), String.intercalate_singleton, String.intercalate_singleton, String.append_assoc]

/-! ### Normal forms -/

theorem collapseSlashes_append {cs : List Char} (hcs : cs ≠ []) (h : '/' ∉ cs) (behind : Bool) (rest : List Char) :
    collapseSlashes behind (cs ++ rest) = cs ++ collapseSlashes false rest := by
  induction cs generalizing behind with
  | nil => contradiction
  | cons c cs ih =>
    obtain ⟨hc, hmore⟩ := not_or.1 (mt List.mem_cons.2 h)
    rw [List.cons_append, collapseSlashes, if_neg (Ne.symm hc), List.cons_append]
    cases cs with
    | nil => rfl
    | cons d ds => rw [ih (List.cons_ne_nil d ds) hmore]

theorem collapseSlashes_subset (behind : Bool) (cs : List Char) : collapseSlashes behind cs ⊆ cs := by
  induction cs generalizing behind with
  | nil => exact List.Subset.refl _
  | cons c cs ih =>
    rw [collapseSlashes]
    split
    · split
      · exact List.subset_cons_of_subset c (ih true)
      · exact List.cons_subset_cons c (ih true)
    · exact List.cons_subset_cons c (ih false)

theorem length_collapseSlashes_le (behind : Bool) (cs : List Char) :
    (collapseSlashes behind cs).length ≤ cs.length := by
  induction cs generalizing behind with
  | nil => exact Nat.le_refl _
  | cons c cs ih =>
    rw [collapseSlashes]
    split
    · split
      · exact Nat.le_succ_of_le (ih true)
      · exact Nat.succ_le_succ (ih true)
    · exact Nat.succ_le_succ (ih false)

theorem map_forwardSlash {cs : List Char} (h : '\x5c' ∉ cs) : cs.map forwardSlash = cs := by
  have hsame : ∀ c ∈ cs, forwardSlash c = id c := by
    intro c hc
    have hne : c ≠ '\x5c' := fun heq => h (heq ▸ hc)
    exact if_neg hne
  rw [List.map_congr_left hsame, List.map_id]

theorem forwardSlash_ne (c : Char) : forwardSlash c ≠ '\x5c' := by
  rw [forwardSlash]
  split
  · decide
  · assumption

/-- A first segment that stands for the folder one is in, without which a path means the same. -/
def dropDot : List String → List String
  | "." :: s :: more => s :: more
  | segments => segments

theorem dropDot_subset (segments : List String) : dropDot segments ⊆ segments := by
  unfold dropDot
  split
  · exact List.subset_cons_self ..
  · exact List.Subset.refl _

theorem dropDot_eq_self (h : hasPrefix "./" ("/".intercalate segments) = false) : dropDot segments = segments := by
  unfold dropDot
  split
  · next s more =>
    have hdot : hasPrefix "./" ("/".intercalate ("." :: s :: more)) = true := by
      rw [hasPrefix, toList_intercalate_cons, List.isPrefixOf_iff_prefix]
      exact List.prefix_append ['.', '/'] _
    rw [hdot] at h
    contradiction
  · rfl

theorem collapseSlashes_intercalate (h : ∀ s ∈ segments, IsSegment s) (behind : Bool) :
    collapseSlashes behind ("/".intercalate segments).toList = ("/".intercalate segments).toList := by
  induction segments generalizing behind with
  | nil => rfl
  | cons s more ih =>
    obtain ⟨⟨hne, hslash⟩, hmore⟩ := List.forall_mem_cons.1 h
    have hs : s.toList ≠ [] := by simpa using hne
    cases more with
    | nil =>
      have hone := collapseSlashes_append hs hslash behind []
      simpa [String.intercalate_singleton, collapseSlashes] using hone
    | cons t rest =>
      rw [toList_intercalate_cons, collapseSlashes_append hs hslash, collapseSlashes, if_pos rfl,
        if_neg Bool.false_ne_true, ih hmore]

theorem getLast?_intercalate (h : ∀ s ∈ segments, IsSegment s) (c : Char)
    (hc : ("/".intercalate segments).toList.getLast? = some c) : c ≠ '/' := by
  induction segments with
  | nil => simp at hc
  | cons s more ih =>
    obtain ⟨⟨-, hslash⟩, hmore⟩ := List.forall_mem_cons.1 h
    cases more with
    | nil =>
      rw [String.intercalate_singleton] at hc
      exact fun heq => hslash (heq ▸ List.mem_of_getLast? hc)
    | cons t rest =>
      have hne : ("/".intercalate (t :: rest)).toList ≠ [] := by
        have ht : t ≠ "" := (hmore t List.mem_cons_self).1
        cases rest with
        | nil => simpa [String.intercalate_singleton] using ht
        | cons u more => simp [String.intercalate_cons_cons]
      rw [toList_intercalate_cons, List.append_cons, List.getLast?_append_of_ne_nil _ hne] at hc
      exact ih hmore hc

theorem afterStart?_intercalate (h : ∀ s ∈ segments, IsSegment s) :
    (afterStart? ['.', '/'] ("/".intercalate segments).toList).getD ("/".intercalate segments).toList =
      ("/".intercalate (dropDot segments)).toList := by
  unfold dropDot
  split
  · next s more =>
    have hstart : afterStart? ['.', '/'] ("/".intercalate ("." :: s :: more)).toList =
        some ("/".intercalate (s :: more)).toList := by
      rw [afterStart?_eq_some_iff, toList_intercalate_cons]
      rfl
    rw [hstart, Option.getD_some]
  · next hother =>
    have hnone : afterStart? ['.', '/'] ("/".intercalate segments).toList = none := by
      rw [Option.eq_none_iff_forall_ne_some]
      intro rest hrest
      rw [afterStart?_eq_some_iff] at hrest
      cases segments with
      | nil => simp at hrest
      | cons s more =>
        obtain ⟨hne, hslash⟩ := h s List.mem_cons_self
        cases more with
        | nil =>
          rw [String.intercalate_singleton] at hrest
          exact hslash (by simp [hrest])
        | cons t more =>
          -- The first segment ends at the first slash, so it is the dot.
          rw [toList_intercalate_cons] at hrest
          have hdot : s.toList = ['.'] := by
            cases hs : s.toList with
            | nil => exact absurd (by simpa using hs) hne
            | cons c cs =>
              cases cs with
              | nil => simp_all
              | cons d ds => simp_all
          refine hother t more (congrArg (· :: t :: more) ?_)
          rw [← String.ofList_toList (s := s), hdot]
    rw [hnone, Option.getD_none]

/-- A path of segments without backslashes is normal but for a dot in front. -/
theorem normalize_intercalate (h : ∀ s ∈ segments, IsSegment s) (hback : '\x5c' ∉ ("/".intercalate segments).toList) :
    normalize ("/".intercalate segments) = "/".intercalate (dropDot segments) := by
  have hdrop : ∀ s ∈ dropDot segments, IsSegment s := fun s hs => h s (dropDot_subset segments hs)
  have hend : dropEnd (· == '/') ("/".intercalate (dropDot segments)).toList =
      ("/".intercalate (dropDot segments)).toList :=
    dropEnd_of_getLast? fun c hc => by simpa using getLast?_intercalate hdrop c hc
  rw [normalize, normalizeChars, map_forwardSlash hback, collapseSlashes_intercalate h, afterStart?_intercalate h, hend,
    String.ofList_toList]

theorem getD_afterStart?_subset (start cs : List Char) : (afterStart? start cs).getD cs ⊆ cs := by
  cases h : afterStart? start cs with
  | none => exact List.Subset.refl _
  | some rest =>
    rw [afterStart?_eq_some_iff.1 h]
    exact List.subset_append_right start rest

theorem backslash_not_mem_normalize (path : String) : '\x5c' ∉ (normalize path).toList := by
  intro hmem
  rw [normalize, String.toList_ofList] at hmem
  have hout := collapseSlashes_subset _ _ (getD_afterStart?_subset _ _ (dropEnd_subset _ _ hmem))
  obtain ⟨c, -, hc⟩ := List.mem_map.1 hout
  exact forwardSlash_ne c hc

theorem length_normalize_lt (h : hasPrefix "./" path = true) :
    (normalize path).toList.length < path.toList.length := by
  obtain ⟨rest, hrest⟩ := List.isPrefixOf_iff_prefix.1 h
  have hout : collapseSlashes false (path.toList.map forwardSlash) =
      ['.', '/'] ++ collapseSlashes true (rest.map forwardSlash) := by
    rw [← hrest]
    rfl
  have hafter : afterStart? ['.', '/'] (collapseSlashes false (path.toList.map forwardSlash)) =
      some (collapseSlashes true (rest.map forwardSlash)) := afterStart?_eq_some_iff.2 hout
  have hcollapse := length_collapseSlashes_le true (rest.map forwardSlash)
  have hdrop := length_dropEnd_le (· == '/') (collapseSlashes true (rest.map forwardSlash))
  have hpath : path.toList.length = rest.length + 2 := by
    rw [← hrest]
    rfl
  rw [List.length_map] at hcollapse
  rw [normalize, String.toList_ofList, normalizeChars, hafter, Option.getD_some]
  omega

theorem of_normalize_eq_self (h : normalize path = path) : '\x5c' ∉ path.toList ∧ hasPrefix "./" path = false := by
  refine ⟨h ▸ backslash_not_mem_normalize path, ?_⟩
  rw [Bool.eq_false_iff]
  intro hdot
  have hlt := length_normalize_lt hdot
  rw [h] at hlt
  exact Nat.lt_irrefl _ hlt

/-! ### Tidy paths -/

section Tidy

variable {cs : List Char}

/-- No two slashes stand behind each other. -/
def SingleSlashes (cs : List Char) : Prop := cs.IsChain fun a b => ¬(a = '/' ∧ b = '/')

/-- Characters of a path with single forward slashes, of which none is at the end. -/
structure IsTidy (cs : List Char) : Prop where
  backslash : '\x5c' ∉ cs
  single : SingleSlashes cs
  last : cs.getLast? ≠ some '/'

/-- A path without the `./` in front, if it starts so. -/
def undot (cs : List Char) : List Char := (afterStart? ['.', '/'] cs).getD cs

theorem undot_suffix (cs : List Char) : undot cs <:+ cs := by
  unfold undot
  cases h : afterStart? ['.', '/'] cs with
  | none => exact List.suffix_refl cs
  | some rest =>
    rw [afterStart?_eq_some_iff.1 h]
    exact List.suffix_append ['.', '/'] rest

theorem undot_eq_self (h : ¬ ['.', '/'] <+: cs) : undot cs = cs := by
  unfold undot
  cases hrest : afterStart? ['.', '/'] cs with
  | none => rfl
  | some rest => exact absurd ⟨rest, (afterStart?_eq_some_iff.1 hrest).symm⟩ h

theorem collapseSlashes_eq_self (h : SingleSlashes cs) {behind : Bool}
    (hbehind : behind = true → cs.head? ≠ some '/') : collapseSlashes behind cs = cs := by
  induction cs generalizing behind with
  | nil => rfl
  | cons c cs ih =>
    obtain ⟨hc, hcs⟩ := List.isChain_cons.1 h
    rw [collapseSlashes]
    split
    · next hslash =>
      have hnot : behind = false := by
        rw [Bool.eq_false_iff]
        exact fun htrue => hbehind htrue (congrArg some hslash)
      rw [hnot, if_neg Bool.false_ne_true]
      exact congrArg (c :: ·) (ih hcs fun _ hhead => hc '/' hhead ⟨hslash, rfl⟩)
    · exact congrArg (c :: ·) (ih hcs (by simp))

theorem singleSlashes_collapseSlashes (behind : Bool) (cs : List Char) :
    SingleSlashes (collapseSlashes behind cs) ∧ (behind = true → (collapseSlashes behind cs).head? ≠ some '/') := by
  induction cs generalizing behind with
  | nil => exact ⟨List.isChain_nil, by simp [collapseSlashes]⟩
  | cons c cs ih =>
    rw [collapseSlashes]
    split
    · next hslash =>
      obtain ⟨hsingle, hhead⟩ := ih true
      split
      · next hbehind => exact ⟨hsingle, fun _ => hhead rfl⟩
      · next hbehind =>
        refine ⟨List.isChain_cons.2 ⟨fun b hb hboth => ?_, hsingle⟩, fun htrue => absurd htrue hbehind⟩
        exact hhead rfl (hboth.2 ▸ hb)
    · next hslash =>
      refine ⟨List.isChain_cons.2 ⟨fun b hb hboth => hslash hboth.1, (ih false).1⟩, fun _ => ?_⟩
      simpa using hslash

theorem IsTidy.of_suffix {ds : List Char} (h : IsTidy cs) (hds : ds <:+ cs) : IsTidy ds := by
  refine ⟨fun hmem => h.backslash (hds.subset hmem), h.single.suffix hds, fun hlast => h.last ?_⟩
  obtain ⟨before, rfl⟩ := hds
  have hne : ds ≠ [] := by
    rintro rfl
    contradiction
  rw [List.getLast?_append_of_ne_nil _ hne, hlast]

/-- All that is left to do for a tidy path is to drop a dot in front. -/
theorem normalizeChars_of_isTidy (h : IsTidy cs) : normalizeChars cs = undot cs := by
  have hlast := (h.of_suffix (undot_suffix cs)).last
  unfold normalizeChars
  rw [map_forwardSlash h.backslash, collapseSlashes_eq_self h.single (by simp)]
  refine dropEnd_of_getLast? fun c hc => beq_eq_false_iff_ne.2 ?_
  rintro rfl
  exact hlast hc

theorem isTidy_normalizeChars (cs : List Char) : IsTidy (normalizeChars cs) := by
  have hback := backslash_not_mem_normalize (String.ofList cs)
  rw [normalize, String.toList_ofList, String.toList_ofList] at hback
  refine ⟨hback, ?_, fun hlast => ?_⟩
  · obtain ⟨hsingle, -⟩ := singleSlashes_collapseSlashes false (cs.map forwardSlash)
    exact List.IsChain.prefix (hsingle.suffix (undot_suffix _)) (isPrefix_dropEnd _ _)
  · exact absurd (of_getLast?_dropEnd hlast) (by decide)

theorem singleSlashes_of_not_mem (h : '/' ∉ cs) : SingleSlashes cs := by
  induction cs with
  | nil => exact List.isChain_nil
  | cons c cs ih =>
    obtain ⟨hc, hcs⟩ := not_or.1 (mt List.mem_cons.2 h)
    exact List.isChain_cons.2 ⟨fun _ _ hboth => hc hboth.1.symm, ih hcs⟩

theorem IsTidy.append_slash {name : List Char} (h : IsTidy cs) (hslash : '/' ∉ name) (hback : '\x5c' ∉ name)
    (hne : name ≠ []) : IsTidy (cs ++ '/' :: name) := by
  have hname : SingleSlashes ('/' :: name) := List.isChain_cons.2
    ⟨fun b hb hboth => hslash (hboth.2 ▸ List.mem_of_mem_head? hb), singleSlashes_of_not_mem hslash⟩
  refine ⟨?_, List.isChain_append.2 ⟨h.single, hname, fun a ha b _ hboth => h.last (hboth.1 ▸ ha)⟩, ?_⟩
  · simp [h.backslash, hback]
  · rw [List.append_cons, List.getLast?_append_of_ne_nil _ hne]
    exact fun hlast => hslash (List.mem_of_getLast? hlast)

/-- A path without the `./` in front, if it starts so. -/
def withoutDot (path : String) : String := String.ofList (undot path.toList)

theorem normalize_of_isTidy (h : IsTidy path.toList) : normalize path = withoutDot path := by
  rw [normalize, normalizeChars_of_isTidy h, withoutDot]

theorem isTidy_normalize (path : String) : IsTidy (normalize path).toList := by
  rw [normalize, String.toList_ofList]
  exact isTidy_normalizeChars _

theorem isTidy_withoutDot (h : IsTidy path.toList) : IsTidy (withoutDot path).toList := by
  rw [withoutDot, String.toList_ofList]
  exact h.of_suffix (undot_suffix _)

/-- Behind a last segment, all stays in its place. -/
theorem hasSuffix_withoutDot {name : String} (hslash : '/' ∉ name.toList) (h : hasSuffix name path = true) :
    hasSuffix name (withoutDot path) = true := by
  rw [hasSuffix, List.isSuffixOf_iff_suffix] at h ⊢
  rw [withoutDot, String.toList_ofList]
  unfold undot
  cases hrest : afterStart? ['.', '/'] path.toList with
  | none => exact h
  | some rest =>
    have hpath := afterStart?_eq_some_iff.1 hrest
    rw [hpath] at h
    rcases List.suffix_or_suffix_of_suffix h (List.suffix_append ['.'] ('/' :: rest)) with hname | hname
    · rcases List.suffix_cons_iff.1 hname with heq | hname
      · exact absurd (heq ▸ List.mem_cons_self) hslash
      · exact hname
    · exact absurd (hname.subset List.mem_cons_self) hslash

end Tidy

/-! ### Relative paths -/

/-- The segments of what `relative` stands for in the file `base`. -/
def steps (base relative : String) : List String :=
  ((split '/' relative).foldl follow (((split '/' base).filter (· != "")).dropLast).reverse).reverse

theorem resolve_eq (base relative : String) : resolve base relative = "/".intercalate (steps base relative) := rfl

theorem mem_foldl_follow {pieces parts : List String} (h : s ∈ pieces.foldl follow parts) :
    s ∈ parts ∨ s ∈ pieces ∧ s ≠ "" ∧ s ≠ "." ∧ s ≠ ".." := by
  induction pieces generalizing parts with
  | nil => exact Or.inl h
  | cons piece pieces ih =>
    rcases ih h with hparts | ⟨hmem, hname⟩
    · unfold follow at hparts
      split at hparts
      · exact Or.inl hparts
      · next hhere =>
        split at hparts
        · exact Or.inl (List.mem_of_mem_tail hparts)
        · next hup =>
          rcases List.mem_cons.1 hparts with rfl | hparts
          · exact Or.inr ⟨List.mem_cons_self, by simp_all⟩
          · exact Or.inl hparts
    · exact Or.inr ⟨List.mem_cons_of_mem _ hmem, hname⟩

/-- A relative path brings names only; what else there is comes from the file that it stands in. -/
theorem of_mem_steps {base relative : String} (h : s ∈ steps base relative) :
    IsSegment s ∧ (s ∈ split '/' base ∨ s ≠ "." ∧ s ≠ "..") := by
  rcases mem_foldl_follow (List.mem_reverse.1 h) with hbase | ⟨hmem, hne, hname⟩
  · have hfolder := List.dropLast_subset _ (List.mem_reverse.1 hbase)
    obtain ⟨hmem, hne⟩ := List.mem_filter.1 hfolder
    exact ⟨⟨by simpa using hne, not_mem_of_mem_split hmem⟩, Or.inl hmem⟩
  · exact ⟨⟨hne, not_mem_of_mem_split hmem⟩, Or.inr hname⟩

end LiveNotes.Path

namespace LiveNotes

namespace FileTree

variable {t : FileTree} {names path place base : List String}

theorem foldlM_step (h : ".." ∉ names) (hplace : names.foldlM (step t) base = .ok place) :
    place = names.reverse ++ base := by
  induction names generalizing base with
  | nil => exact (Except.ok.inj hplace).symm
  | cons n names ih =>
    obtain ⟨hn, hnames⟩ := not_or.1 (mt List.mem_cons.2 h)
    rw [List.foldlM_cons] at hplace
    cases hstep : step t base n with
    | error e =>
      rw [hstep] at hplace
      cases hplace
    | ok next =>
      rw [hstep] at hplace
      have hnext : next = n :: base := by
        have hne : (n == "..") = false := beq_eq_false_iff_ne.2 (Ne.symm hn)
        unfold step at hstep
        rw [hne] at hstep
        split at hstep
        · cases hstep
        · cases hstep
        · exact (Except.ok.inj hstep).symm
      rw [ih hnames hplace, hnext, List.reverse_cons, List.append_assoc, List.singleton_append]

/-- Behind the place of a path, names lead down only. -/
theorem locate_append (h : ".." ∉ names) (hplace : t.locate (path ++ names) = .ok place) :
    ∃ base, t.locate path = .ok base ∧ place = base ++ names := by
  rw [locate] at hplace
  split at hplace
  · cases hplace
  · next hbytes =>
    have hpath : path.any (·.toList.contains '\x00') = false := by
      rw [List.any_append, Bool.or_eq_true, not_or] at hbytes
      exact Bool.eq_false_iff.2 hbytes.1
    rw [List.foldlM_append] at hplace
    rw [locate, hpath, if_neg Bool.false_ne_true]
    cases hbase : path.foldlM (step t) [] with
    | error e =>
      rw [hbase] at hplace
      cases hplace
    | ok base =>
      rw [hbase] at hplace
      cases hall : names.foldlM (step t) base with
      | error e =>
        change (names.foldlM (step t) base).map List.reverse = .ok place at hplace
        rw [hall] at hplace
        cases hplace
      | ok all =>
        change (names.foldlM (step t) base).map List.reverse = .ok place at hplace
        rw [hall] at hplace
        refine ⟨base.reverse, rfl, ?_⟩
        rw [← Except.ok.inj hplace, foldlM_step h hall, List.reverse_append, List.reverse_reverse]

end FileTree

namespace FolderStore

variable {f : FolderStore} {path other : String} {place : List String}

/-- The place in the tree that a path of the folder leads to. -/
def LeadsTo (f : FolderStore) (path : String) (place : List String) : Prop :=
  f.tree.locate (f.absolute path) = .ok place

theorem absolute_intercalate {names : List String} (h : ∀ n ∈ names, Path.IsName n) :
    f.absolute ("/".intercalate names) = f.root ++ names := by
  rw [absolute, Path.filter_split_intercalate h]

theorem LeadsTo.below (h : f.LeadsTo path place) (hpath : Path.StaysBelow path) :
    ∃ base, f.tree.locate f.root = .ok base ∧ base <+: place := by
  have hnames : ".." ∉ (Text.split '/' path).filter fun p => p != "" && p != "." :=
    fun hmem => hpath (List.mem_filter.1 hmem).1
  obtain ⟨base, hbase, rfl⟩ := FileTree.locate_append hnames h
  exact ⟨base, hbase, List.prefix_append ..⟩

theorem LeadsTo.eq_of_plain (h : f.LeadsTo path place) (h' : f.LeadsTo other place) (hpath : Path.IsPlain path)
    (hother : Path.IsPlain other) : path = other := by
  obtain ⟨names, hnames, rfl⟩ := hpath
  obtain ⟨names', hnames', rfl⟩ := hother
  rw [LeadsTo, absolute_intercalate hnames] at h
  rw [LeadsTo, absolute_intercalate hnames'] at h'
  have hdown : ∀ {l : List String}, (∀ n ∈ l, Path.IsName n) → ".." ∉ l := fun hl hmem => (hl _ hmem).2.2 rfl
  obtain ⟨base, hbase, rfl⟩ := FileTree.locate_append (hdown hnames) h
  obtain ⟨base', hbase', hplace⟩ := FileTree.locate_append (hdown hnames') h'
  obtain rfl : base = base' := Except.ok.inj (hbase.symm.trans hbase')
  rw [List.append_cancel_left hplace]

end FolderStore

end LiveNotes
