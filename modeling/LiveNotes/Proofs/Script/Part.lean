import LiveNotes.Proofs.Script.Marks

/-! The parts of a tree, by the paths that lead to them. Leaves at different paths lie apart from each other in
the text. -/

namespace LiveNotes.Script

variable {text : List Char} {lo hi : Nat}

namespace Tree

/-- What holds of a node when it holds of its parts holds of every tree. -/
@[elab_as_elim] theorem induction {motive : Tree → Prop}
    (node : ∀ label span ks, (∀ k ∈ ks, motive k) → motive (.node label span ks)) : ∀ t, motive t
  | .node label span ks => node label span ks fun k hk => by
    have := List.sizeOf_lt_of_mem hk
    exact induction node k

mutual

/-- Trees are compared part by part. -/
def decEq : (t u : Tree) → Decidable (t = u)
  | .node label span ks, .node label' span' ks' =>
    if h : label = label' ∧ span = span' then
      match decEqAll ks ks' with
      | .isTrue hks => .isTrue (by rw [h.1, h.2, hks])
      | .isFalse hks => .isFalse (by simp [hks])
    else .isFalse (by simp_all)

def decEqAll : (ts us : List Tree) → Decidable (ts = us)
  | [], [] => .isTrue rfl
  | [], _ :: _ => .isFalse (by simp)
  | _ :: _, [] => .isFalse (by simp)
  | t :: ts, u :: us =>
    match decEq t u, decEqAll ts us with
    | .isTrue ht, .isTrue hts => .isTrue (by rw [ht, hts])
    | .isFalse ht, _ => .isFalse (by simp [ht])
    | _, .isFalse hts => .isFalse (by simp [hts])

end

instance : DecidableEq Tree := decEq

/-- The part of a tree to which a path leads. -/
def at? : Tree → List Nat → Option Tree
  | t, [] => some t
  | t, i :: path => t.kids[i]?.bind fun k => k.at? path

variable {t u k : Tree} {label : Label} {span : Span} {ks : List Tree} {i : Nat} {path path' : List Nat}

@[simp] theorem at?_nil (t : Tree) : t.at? [] = some t := rfl

theorem at?_cons : t.at? (i :: path) = some u ↔ ∃ k, t.kids[i]? = some k ∧ k.at? path = some u := by
  rw [at?, Option.bind_eq_some_iff]

theorem at?_node : (node label span ks).at? (i :: path) = some u ↔ ∃ k, ks[i]? = some k ∧ k.at? path = some u := at?_cons

theorem at?_append : t.at? (path ++ path') = (t.at? path).bind fun u => u.at? path' := by
  induction path generalizing t with
  | nil => rfl
  | cons i path ih =>
    rw [List.cons_append, at?, at?]
    cases t.kids[i]? with
    | none => rfl
    | some k => exact ih

theorem at?_append_singleton : t.at? (path ++ [i]) = some u ↔ ∃ v, t.at? path = some v ∧ v.kids[i]? = some u := by
  rw [at?_append, Option.bind_eq_some_iff]
  simp [at?]

/-- There is nothing inside of a tree without parts. -/
theorem at?_of_kids_eq_nil (h : t.kids = []) (hu : t.at? path = some u) : path = [] ∧ t = u := by
  cases path with
  | nil => exact ⟨rfl, by simpa using hu⟩
  | cons i path =>
    obtain ⟨k, hk, _⟩ := at?_cons.1 hu
    simp [h] at hk

/-- Whether the `i`-th part of a node with the label has leaves of its own: a leaf has no parts, and a key that names
a value is one with it. -/
def shows (label : Label) (i : Nat) : Bool := !label.isLeaf && !(label.isShorthand && i == 0)

/-- Every step of the path leads to a part that has leaves of its own. -/
def Shows (t : Tree) (path : List Nat) : Prop :=
  ∀ front i back u, path = front ++ i :: back → t.at? front = some u → shows u.label i = true

theorem Shows.head (h : (Tree.node label span ks).Shows (i :: path)) : shows label i = true := h [] i path _ rfl rfl

theorem Shows.tail (h : (Tree.node label span ks).Shows (i :: path)) (hk : ks[i]? = some k) : k.Shows path := by
  intro front j back u hpath hu
  exact h (i :: front) j back u (by rw [hpath, List.cons_append]) (at?_cons.2 ⟨k, hk, hu⟩)

end Tree

open Tree

variable {t u v k l : Tree} {label : Label} {span : Span} {ks : List Tree} {i j : Nat} {path path' : List Nat}

theorem Regular.at? (h : Regular text t) (hu : t.at? path = some u) : Regular text u := by
  induction path generalizing t with
  | nil =>
    obtain rfl := by simpa using hu
    exact h
  | cons i path ih =>
    obtain ⟨label, span, ks⟩ := t
    obtain ⟨k, hk, hu⟩ := at?_cons.1 hu
    exact ih (h.kids k (List.mem_of_getElem? hk)) hu

theorem Tree.isImportPart.kids (h : t.isImportPart = true) : t.kids = [] := by
  unfold Tree.isImportPart at h
  split at h
  iterate 4 rfl
  simp at h

/-- What is neither a key nor a part of an import has leaves of its own. -/
theorem Regular.shows (h : Regular text t) (hu : t.at? path = some u) (hpart : u.isImportPart = false)
    (hname : ∀ w, u.label ≠ .name w) : t.Shows path := by
  rintro front i back v rfl hv
  rw [Tree.at?_append, hv, Option.bind_some] at hu
  obtain ⟨k, hk, hback⟩ := Tree.at?_cons.1 hu
  obtain ⟨label, span, ks⟩ := v
  have hnode := h.at? hv
  have hleaf : label.isLeaf = false := by
    rw [← Bool.not_eq_true]
    intro hleaf
    rcases hnode.leaf hleaf with rfl | ⟨_, _, _, _, rfl⟩
    · simp at hk
    · have hkpart : k.isImportPart = true := hnode.fits k (List.mem_of_getElem? hk)
      obtain ⟨_, rfl⟩ := Tree.at?_of_kids_eq_nil (Tree.isImportPart.kids hkpart) hback
      simp [hkpart] at hpart
  have hkey : label.isShorthand = true → i ≠ 0 := by
    rintro hshort rfl
    obtain ⟨w, s, v, rfl⟩ := hnode.key hshort
    obtain rfl := by simpa using hk
    obtain ⟨_, rfl⟩ := Tree.at?_of_kids_eq_nil rfl hback
    exact hname w rfl
  cases hshort : label.isShorthand with
  | false => simp [Tree.shows, hleaf, hshort]
  | true => simp [Tree.shows, hleaf, hkey hshort]

/-- How many parts of a node with the label stand in front of those that have leaves of their own. -/
def Label.hidden (label : Label) : Nat := if label.isShorthand then 1 else 0

theorem marks_eq_drop (hleaf : label.isLeaf = false) (span : Span) (ks : List Tree) :
    marks (.node label span ks) = marksAll (ks.drop label.hidden) := by
  cases ks with
  | nil => simp [marks, marksAll, hleaf]
  | cons k ks => cases hshort : label.isShorthand <;> simp [marks, marksAll, Label.hidden, hleaf, hshort]

/-- The place of a part among those that have leaves of their own. -/
theorem shows_getElem? (h : shows label i = true) (ks : List Tree) :
    label.isLeaf = false ∧ label.hidden ≤ i ∧ (ks.drop label.hidden)[i - label.hidden]? = ks[i]? := by
  obtain ⟨hleaf, hkey⟩ : label.isLeaf = false ∧ (label.isShorthand = false ∨ i ≠ 0) := by simpa [shows] using h
  have hle : label.hidden ≤ i := by
    rw [Label.hidden]
    split
    · next hshort => exact Nat.one_le_iff_ne_zero.2 (hkey.resolve_left (by simp [hshort]))
    · exact Nat.zero_le _
  exact ⟨hleaf, hle, by rw [List.getElem?_drop, Nat.add_sub_cancel' hle]⟩

theorem marks_sublist_of_getElem? (hk : ks[i]? = some k) : (marks k).Sublist (marksAll ks) := by
  rw [marksAll_eq_flatMap, List.flatMap_def]
  exact List.sublist_flatten_of_mem (List.mem_map_of_mem (List.mem_of_getElem? hk))

theorem apart_of_ne (hapart : (marksAll ks).Pairwise Span.Apart) (hk : ks[i]? = some k) (hl : ks[j]? = some l)
    (hne : i ≠ j) : ∀ m ∈ marks k, ∀ n ∈ marks l, m.Apart n := by
  rw [marksAll_eq_flatMap, List.pairwise_flatMap, List.pairwise_iff_getElem] at hapart
  obtain ⟨hi, rfl⟩ := List.getElem?_eq_some_iff.1 hk
  obtain ⟨hj, rfl⟩ := List.getElem?_eq_some_iff.1 hl
  intro m hm n hn
  rcases Nat.lt_or_gt_of_ne hne with hlt | hlt
  · exact hapart.2 i j hi hj hlt m hm n hn
  · exact (hapart.2 j i hj hi hlt n hn m hm).symm

/-- The leaves of a part are leaves of the tree. -/
theorem marks_sublist_of_at? (hu : t.at? path = some u) (hshows : t.Shows path) : (marks u).Sublist (marks t) := by
  induction path generalizing t with
  | nil =>
    obtain rfl := by simpa using hu
    exact List.Sublist.refl _
  | cons i path ih =>
    obtain ⟨label, span, ks⟩ := t
    obtain ⟨k, hk, hu⟩ := at?_cons.1 hu
    obtain ⟨hleaf, _, hplace⟩ := shows_getElem? hshows.head ks
    refine (ih hu (hshows.tail hk)).trans ?_
    rw [marks_eq_drop hleaf]
    exact marks_sublist_of_getElem? (hplace.trans hk)

theorem span_mem_marks (hu : t.at? path = some u) (hshows : t.Shows path) (hleaf : u.label.isLeaf = true) :
    u.span ∈ marks t := by
  refine (marks_sublist_of_at? hu hshows).subset ?_
  obtain ⟨label, span, ks⟩ := u
  have hmarks : marks (.node label span ks) = [span] := marks_leaf hleaf span ks
  rw [hmarks]
  exact List.mem_singleton_self span

/-- Leaves at different paths lie apart from each other. -/
theorem apart_of_path_ne (hapart : (marks t).Pairwise Span.Apart) (hu : t.at? path = some u) (hv : t.at? path' = some v)
    (hshows : t.Shows path) (hshows' : t.Shows path') (huleaf : u.label.isLeaf = true) (hvleaf : v.label.isLeaf = true)
    (hne : path ≠ path') : u.span.Apart v.span := by
  induction path generalizing t path' with
  | nil =>
    obtain rfl := by simpa using hu
    cases path' with
    | nil => exact absurd rfl hne
    | cons j path' =>
      have hhead : shows t.label j = true := hshows' [] j path' t rfl rfl
      simp [shows, huleaf] at hhead
  | cons i path ih =>
    obtain ⟨label, span, ks⟩ := t
    cases path' with
    | nil =>
      obtain rfl := by simpa using hv
      have hhead := hshows.head
      rw [shows, show label.isLeaf = true from hvleaf] at hhead
      simp at hhead
    | cons j path' =>
      obtain ⟨k, hk, hu⟩ := at?_cons.1 hu
      obtain ⟨l, hl, hv⟩ := at?_cons.1 hv
      obtain ⟨hleaf, hi, hiplace⟩ := shows_getElem? hshows.head ks
      obtain ⟨_, hj, hjplace⟩ := shows_getElem? hshows'.head ks
      rw [marks_eq_drop hleaf] at hapart
      by_cases hij : i = j
      · subst hij
        obtain rfl : k = l := Option.some.inj (hk.symm.trans hl)
        refine ih (hapart.sublist (marks_sublist_of_getElem? (hiplace.trans hk))) hu hv (hshows.tail hk)
          (hshows'.tail hl) fun hpath => hne (by rw [hpath])
      · have hplaces : i - label.hidden ≠ j - label.hidden := by omega
        refine apart_of_ne hapart (hiplace.trans hk) (hjplace.trans hl) hplaces _ ?_ _ ?_
        · exact span_mem_marks hu (hshows.tail hk) huleaf
        · exact span_mem_marks hv (hshows'.tail hl) hvleaf

end LiveNotes.Script
