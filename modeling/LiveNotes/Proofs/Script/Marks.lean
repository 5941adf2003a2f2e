import LiveNotes.Proofs.Script.Places
import Mathlib.Data.List.Flatten

/-! The spans of the words in a tree. In trees that are read from a text they lie apart from each other, each
identifier spells its name, and the calls that import lie in what was read. -/

namespace LiveNotes.Script

open Text

variable {text : List Char} {lo hi : Nat}

/-! ### Parts of a text -/

/-- The bytes of the text in the span are `part`. -/
def Span.Holds (text : List Char) (m : Span) (part : List Char) : Prop :=
  ∃ before after, text = before ++ part ++ after ∧ m.start = byteLength before ∧
    m.stop = byteLength before + byteLength part

/-- A character of the text starts at byte `n`, or the text ends there. -/
def IsPlace (text : List Char) (n : Nat) : Prop := ∃ p, (Place.mk text 0).Reaches p ∧ p.pos = n

/-- One of two spans ends before the other starts. -/
def Span.Apart (m n : Span) : Prop := m.stop ≤ n.start ∨ n.stop ≤ m.start

theorem Span.Apart.symm {m n : Span} (h : m.Apart n) : n.Apart m := Or.symm h

/-- The first span starts behind the start of the second one, and does not end behind its end. -/
def Span.Inside (m n : Span) : Prop := n.start < m.start ∧ m.stop ≤ n.stop

/-- Two spans lie apart from each other, or one of them in the other. -/
def Span.Nested (m n : Span) : Prop := m.Apart n ∨ m.Inside n ∨ n.Inside m

theorem Span.Nested.symm {m n : Span} (h : m.Nested n) : n.Nested m := h.imp Span.Apart.symm Or.symm

/-- The part of a text between two places. -/
theorem exists_holds {m : Span} (hstart : IsPlace text m.start) (hstop : IsPlace text m.stop)
    (hle : m.start ≤ m.stop) : ∃ part, m.Holds text part := by
  obtain ⟨p, ⟨before, hp⟩, hpos⟩ := hstart
  obtain ⟨q, ⟨more, hq⟩, hqpos⟩ := hstop
  have hbefore : m.start = byteLength before := by rw [← hpos, hp.pos, Nat.zero_add]
  have hmore : m.stop = byteLength more := by rw [← hqpos, hq.pos, Nat.zero_add]
  have hsame : before ++ p.rest = more ++ q.rest := hp.rest.symm.trans hq.rest
  rcases List.append_eq_append_iff.1 hsame with ⟨part, rfl, hrest⟩ | ⟨part, rfl, hrest⟩
  · refine ⟨part, before, q.rest, ?_, hbefore, ?_⟩
    · exact hq.rest
    · rw [hmore, byteLength_append]
  · have hpart : byteLength part = 0 := by
      rw [byteLength_append] at hbefore
      omega
    refine ⟨[], more, q.rest, ?_, ?_, ?_⟩
    · rw [List.append_nil]
      exact hq.rest
    · rw [hbefore, byteLength_append, hpart, Nat.add_zero]
    · rw [hmore]
      rfl

/-- The text of the span is the name, or holds an escape. -/
def Span.Spells (text : List Char) (m : Span) (name : String) : Prop :=
  ∃ part, m.Holds text part ∧ (part = name.toList ∨ '\x5c' ∈ part)

/-! ### Words -/

namespace Label

/-- Whether a node with the label is a word, a literal or an import. -/
def isLeaf : Label → Bool
  | .read _ | .target _ | .binding _ | .name _ | .privateName _ | .nullLiteral | .boolLiteral _ | .number _
  | .bigint _ | .string _ _ | .regex _ _ | .quasi _ | .thisRef | .superRef | .newTarget | .importMeta
  | .breakStatement _ | .continueStatement _ | .importDecl _ _ _ _ | .exportName _ _ _ => true
  | _ => false

/-- Whether a node with the label is a call that imports. -/
def isCall : Label → Bool
  | .importCall _ => true
  | _ => false

/-- Whether a node with the label has no place of its own, but only those of its parts. -/
def isInner (label : Label) : Bool := !label.isLeaf && !label.isCall

/-- Whether a node with the label has a key that is the name of its value. -/
def isShorthand : Label → Bool
  | .property _ _ true | .bindingProperty _ true | .targetProperty _ true => true
  | _ => false

/-- The name that a node with the label reads, assigns to or binds, or that is a key. -/
def identifier? : Label → Option String
  | .read x | .target x | .binding x | .name x => some x
  | _ => none

end Label

namespace Tree

mutual

/-- The spans of the leaves of a tree, in the order of its parts. -/
def marks : Tree → List Span
  | .node label span [] => if label.isLeaf then [span] else []
  | .node label span (k :: ks) =>
    if label.isLeaf then [span] else if label.isShorthand then marksAll ks else marks k ++ marksAll ks

def marksAll : List Tree → List Span
  | [] => []
  | t :: ts => marks t ++ marksAll ts

end

mutual

/-- The spans of the calls in a tree that import, each in front of those inside of it. -/
def calls : Tree → List Span
  | .node label span ks => if label.isCall then span :: callsAll ks else callsAll ks

def callsAll : List Tree → List Span
  | [] => []
  | t :: ts => calls t ++ callsAll ts

end

end Tree

/-- Whether a tree is a part of an import. -/
def Tree.isImportPart : Tree → Bool
  | .node (.importDefault _) _ [] | .node (.importAll _) _ [] | .node (.importName _ _ _) _ []
  | .node (.importAttributes _ _) _ [] => true
  | _ => false

/-- What is known of the parts of a node with the given label and span. -/
def Fits (text : List Char) (label : Label) (span : Span) (ks : List Tree) : Prop :=
  match label with
  | .read x | .target x | .binding x | .name x => span.Spells text x ∧ ks = []
  | .property _ _ true | .bindingProperty _ true | .targetProperty _ true =>
    ∃ w s v, ks = [.node (.name w) s [], v] ∧
      (v.label = .coverDefault ∨ v.label = .withDefault ∨ v.label.identifier?.isSome ∧ v.span = span)
  | .conditional => ks.length = 3
  | .arrow _ => ks.length = 2
  | .classExpr | .classDecl => ks.length = 4
  | .switchStatement => ks ≠ []
  | .importDecl _ _ _ _ => ∀ k ∈ ks, k.isImportPart = true
  | .privateName _ | .nullLiteral | .boolLiteral _ | .number _ | .bigint _ | .string _ _ | .regex _ _ | .quasi _
  | .thisRef | .superRef | .newTarget | .importMeta | .breakStatement _ | .continueStatement _ | .exportName _ _ _ =>
    ks = []
  | _ => True

mutual

/-- Every node of the tree fits its parts. -/
def Regular (text : List Char) : Tree → Prop
  | .node label span ks => Fits text label span ks ∧ RegularAll text ks

def RegularAll (text : List Char) : List Tree → Prop
  | [] => True
  | t :: ts => Regular text t ∧ RegularAll text ts

end

/-- Some characters of the text, between `lo` and `hi`, are the part that the span is. -/
structure Span.Lies (text : List Char) (lo hi : Nat) (m : Span) : Prop where
  start : IsPlace text m.start
  stop : IsPlace text m.stop
  lo_le : lo ≤ m.start
  lt : m.start < m.stop
  le_hi : m.stop ≤ hi

/-- Trees whose leaves lie apart from each other between `lo` and `hi`, as do the calls that import, unless they
stand in each other. -/
structure Spaced (text : List Char) (lo hi : Nat) (ts : List Tree) : Prop where
  regular : ∀ t ∈ ts, Regular text t
  stands : ∀ m ∈ Tree.marksAll ts, IsPlace text m.start ∧ IsPlace text m.stop ∧ m.start ≤ m.stop
  within : ∀ m ∈ Tree.marksAll ts, lo ≤ m.start ∧ m.stop ≤ hi
  apart : (Tree.marksAll ts).Pairwise Span.Apart
  inside : ∀ m ∈ Tree.callsAll ts, m.Lies text lo hi
  nested : (Tree.callsAll ts).Pairwise Span.Nested

open Tree

theorem regularAll_iff (ts : List Tree) : RegularAll text ts ↔ ∀ t ∈ ts, Regular text t := by
  induction ts with
  | nil => simp [RegularAll]
  | cons t ts ih => simp [RegularAll, ih]

theorem marksAll_eq_flatMap (ts : List Tree) : marksAll ts = ts.flatMap marks := by
  induction ts with
  | nil => rfl
  | cons t ts ih => rw [marksAll, ih, List.flatMap_cons]

theorem marks_leaf {label : Label} (h : label.isLeaf = true) (span : Span) (ks : List Tree) :
    marks (.node label span ks) = [span] := by
  cases ks <;> simp [marks, h]

theorem marks_shorthand {label : Label} (h : label.isLeaf = false) (h' : label.isShorthand = true) (span : Span)
    (k : Tree) (ks : List Tree) : marks (.node label span (k :: ks)) = marksAll ks := by
  simp [marks, h, h']

theorem marks_node {label : Label} (h : label.isLeaf = false) (h' : label.isShorthand = false) (span : Span)
    (ks : List Tree) : marks (.node label span ks) = marksAll ks := by
  cases ks <;> simp [marks, marksAll, h, h']

theorem marks_sublist {label : Label} (h : label.isLeaf = false) (span : Span) (ks : List Tree) :
    (marks (.node label span ks)).Sublist (marksAll ks) := by
  cases ks with
  | nil => simp [marks, h]
  | cons k ks =>
    cases h' : label.isShorthand with
    | true =>
      rw [marks_shorthand h h', marksAll]
      exact List.sublist_append_right _ _
    | false => simp [marks_node h h']

theorem Span.Lies.weaken {lo' hi' : Nat} {m : Span} (h : m.Lies text lo hi) (hlo : lo' ≤ lo) (hhi : hi ≤ hi') :
    m.Lies text lo' hi' := ⟨h.start, h.stop, Nat.le_trans hlo h.lo_le, h.lt, Nat.le_trans h.le_hi hhi⟩

theorem Label.isLeaf_of_isInner {label : Label} (h : label.isInner = true) : label.isLeaf = false := by
  simp_all [Label.isInner]

theorem callsAll_eq_flatMap (ts : List Tree) : callsAll ts = ts.flatMap calls := by
  induction ts with
  | nil => rfl
  | cons t ts ih => rw [callsAll, ih, List.flatMap_cons]

theorem calls_inner {label : Label} (h : label.isInner = true) (span : Span) (ks : List Tree) :
    calls (.node label span ks) = callsAll ks := by
  obtain ⟨-, hcall⟩ : label.isLeaf = false ∧ label.isCall = false := by simpa [Label.isInner] using h
  rw [calls, hcall, if_neg Bool.false_ne_true]

theorem callsAll_sublist (label : Label) (span : Span) (ks : List Tree) :
    (callsAll ks).Sublist (calls (.node label span ks)) := by
  rw [calls]
  split
  · exact List.sublist_cons_self _ _
  · exact List.Sublist.refl _

@[simp] theorem callsAll_append (ts us : List Tree) : callsAll (ts ++ us) = callsAll ts ++ callsAll us := by
  simp [callsAll_eq_flatMap]

@[simp] theorem callsAll_singleton (t : Tree) : callsAll [t] = calls t := by simp [callsAll]

@[simp] theorem marksAll_append (ts us : List Tree) : marksAll (ts ++ us) = marksAll ts ++ marksAll us := by
  simp [marksAll_eq_flatMap]

@[simp] theorem marksAll_singleton (t : Tree) : marksAll [t] = marks t := by simp [marksAll]

theorem regular_node {label : Label} {span : Span} {ks : List Tree} (hfits : Fits text label span ks)
    (hks : ∀ k ∈ ks, Regular text k) : Regular text (.node label span ks) := by
  rw [Regular, regularAll_iff]
  exact ⟨hfits, hks⟩

theorem Regular.fits {label : Label} {span : Span} {ks : List Tree} (h : Regular text (.node label span ks)) :
    Fits text label span ks := by
  rw [Regular] at h
  exact h.1

theorem Regular.kids {label : Label} {span : Span} {ks : List Tree} (h : Regular text (.node label span ks)) :
    ∀ k ∈ ks, Regular text k := by
  rw [Regular, regularAll_iff] at h
  exact h.2

theorem regular_importPart {t : Tree} (h : t.isImportPart = true) : Regular text t := by
  unfold Tree.isImportPart at h
  split at h
  iterate 4 exact regular_node trivial (by simp)
  simp at h

/-- An identifier spells its name. -/
theorem Regular.spells {label : Label} {span : Span} {ks : List Tree} {w : String}
    (h : Regular text (.node label span ks)) (hlabel : label.identifier? = some w) : span.Spells text w ∧ ks = [] := by
  have hfits := h.fits
  cases label <;> simp_all [Label.identifier?, Fits]

/-- A leaf has no parts, but for an import. -/
theorem Regular.leaf {label : Label} {span : Span} {ks : List Tree} (h : Regular text (.node label span ks))
    (hleaf : label.isLeaf = true) :
    ks = [] ∨ ∃ phase source bare typeOnly, label = .importDecl phase source bare typeOnly := by
  have hfits := h.fits
  cases label with
  | importDecl => exact .inr ⟨_, _, _, _, rfl⟩
  | _ => simp_all [Label.isLeaf, Fits]

theorem calls_importPart {t : Tree} (h : t.isImportPart = true) : calls t = [] := by
  unfold Tree.isImportPart at h
  split at h
  iterate 4 rfl
  simp at h

/-- No call stands in a leaf. -/
theorem Regular.calls_leaf {label : Label} {span : Span} {ks : List Tree} (h : Regular text (.node label span ks))
    (hleaf : label.isLeaf = true) : calls (.node label span ks) = [] := by
  rcases h.leaf hleaf with rfl | ⟨phase, source, bare, typeOnly, rfl⟩
  · cases label <;> first | rfl | contradiction
  · have hparts : ∀ k ∈ ks, k.isImportPart = true := h.fits
    simpa [calls, Label.isCall, callsAll_eq_flatMap] using fun k hk => calls_importPart (hparts k hk)

/-- The key of a shorthand property is a name. -/
theorem Regular.key {label : Label} {span : Span} {ks : List Tree} (h : Regular text (.node label span ks))
    (hshort : label.isShorthand = true) : ∃ w s v, ks = [.node (.name w) s [], v] := by
  have hfits := h.fits
  unfold Label.isShorthand at hshort
  split at hshort
  iterate 3
    obtain ⟨w, s, v, hks, _⟩ := hfits
    exact ⟨w, s, v, hks⟩
  simp at hshort

namespace Spaced

variable {ts us : List Tree} {t : Tree} {label : Label} {span : Span} {ks : List Tree} {mid mid' : Nat}

theorem nil : Spaced text lo hi [] :=
  ⟨by simp, by simp [marksAll], by simp [marksAll], by simp [marksAll], by simp [callsAll], by simp [callsAll]⟩

theorem weaken {lo' hi' : Nat} (h : Spaced text lo hi ts) (hlo : lo' ≤ lo) (hhi : hi ≤ hi') :
    Spaced text lo' hi' ts where
  regular := h.regular
  stands := h.stands
  within m hm := ⟨Nat.le_trans hlo (h.within m hm).1, Nat.le_trans (h.within m hm).2 hhi⟩
  apart := h.apart
  inside m hm := (h.inside m hm).weaken hlo hhi
  nested := h.nested

/-- Trees behind others. -/
theorem append (h : Spaced text lo mid ts) (h' : Spaced text mid' hi us) (hmid : mid ≤ mid')
    (hlo : lo ≤ mid') (hhi : mid ≤ hi) : Spaced text lo hi (ts ++ us) where
  regular t ht := (List.mem_append.1 ht).elim (h.regular t) (h'.regular t)
  stands m hm := by
    rw [marksAll_append, List.mem_append] at hm
    exact hm.elim (h.stands m) (h'.stands m)
  within m hm := by
    rw [marksAll_append, List.mem_append] at hm
    rcases hm with hm | hm
    · exact ⟨(h.within m hm).1, Nat.le_trans (h.within m hm).2 hhi⟩
    · exact ⟨Nat.le_trans hlo (h'.within m hm).1, (h'.within m hm).2⟩
  apart := by
    rw [marksAll_append, List.pairwise_append]
    refine ⟨h.apart, h'.apart, fun m hm n hn => .inl ?_⟩
    have := (h.within m hm).2
    have := (h'.within n hn).1
    omega
  inside m hm := by
    rw [callsAll_append, List.mem_append] at hm
    rcases hm with hm | hm
    · exact (h.inside m hm).weaken (Nat.le_refl _) hhi
    · exact (h'.inside m hm).weaken hlo (Nat.le_refl _)
  nested := by
    rw [callsAll_append, List.pairwise_append]
    refine ⟨h.nested, h'.nested, fun m hm n hn => .inl (.inl ?_)⟩
    exact Nat.le_trans (h.inside m hm).le_hi (Nat.le_trans hmid (h'.inside n hn).lo_le)

/-- Trees with the same leaves and calls, perhaps fewer. -/
theorem of_sublist (h : Spaced text lo hi ts) (hregular : ∀ u ∈ us, Regular text u)
    (hmarks : (marksAll us).Sublist (marksAll ts)) (hcalls : (callsAll us).Sublist (callsAll ts)) :
    Spaced text lo hi us where
  regular := hregular
  stands m hm := h.stands m (hmarks.subset hm)
  within m hm := h.within m (hmarks.subset hm)
  apart := h.apart.sublist hmarks
  inside m hm := h.inside m (hcalls.subset hm)
  nested := h.nested.sublist hcalls

theorem drop (h : Spaced text lo hi ts) (hus : us.Sublist ts) : Spaced text lo hi us := by
  refine h.of_sublist (fun u hu => h.regular u (hus.subset hu)) ?_ ?_
  · rw [marksAll_eq_flatMap, marksAll_eq_flatMap]
    exact hus.flatMap marks
  · rw [callsAll_eq_flatMap, callsAll_eq_flatMap]
    exact hus.flatMap calls

theorem perm (h : Spaced text lo hi ts) (hperm : us.Perm ts) : Spaced text lo hi us where
  regular u hu := h.regular u (hperm.subset hu)
  stands m hm := h.stands m (by
    rw [marksAll_eq_flatMap] at hm ⊢
    exact (hperm.flatMap_right marks).subset hm)
  within m hm := h.within m (by
    rw [marksAll_eq_flatMap] at hm ⊢
    exact (hperm.flatMap_right marks).subset hm)
  apart := by
    have happart := h.apart
    rw [marksAll_eq_flatMap] at happart ⊢
    exact ((hperm.flatMap_right marks).pairwise_iff Span.Apart.symm).2 happart
  inside m hm := h.inside m (by
    rw [callsAll_eq_flatMap] at hm ⊢
    exact (hperm.flatMap_right calls).subset hm)
  nested := by
    have hnested := h.nested
    rw [callsAll_eq_flatMap] at hnested ⊢
    exact ((hperm.flatMap_right calls).pairwise_iff Span.Nested.symm).2 hnested

/-- A node whose leaves are those of its parts. -/
theorem node (h : Spaced text lo hi ks) (hinner : label.isInner = true) (hfits : Fits text label span ks) :
    Spaced text lo hi [.node label span ks] := by
  refine h.of_sublist (fun u hu => ?_) ?_ ?_
  · rw [List.mem_singleton] at hu
    exact hu ▸ regular_node hfits h.regular
  · rw [marksAll_singleton]
    exact marks_sublist (Label.isLeaf_of_isInner hinner) span ks
  · have hcalls : callsAll [.node label span ks] = callsAll ks := by rw [callsAll_singleton, calls_inner hinner]
    exact hcalls ▸ List.Sublist.refl _

/-- A call that imports, around its arguments. -/
theorem call {phase : ImportPhase} (h : Spaced text mid hi ks) (hlies : span.Lies text lo hi)
    (hmid : span.start < mid) (hhi : hi ≤ span.stop) : Spaced text lo hi [.node (.importCall phase) span ks] where
  regular u hu := by
    rw [List.mem_singleton] at hu
    exact hu ▸ regular_node trivial h.regular
  stands := by
    rw [marksAll_singleton, marks_node rfl rfl]
    exact h.stands
  within := by
    rw [marksAll_singleton, marks_node rfl rfl]
    exact (h.weaken (Nat.le_trans hlies.lo_le (Nat.le_of_lt hmid)) (Nat.le_refl _)).within
  apart := by
    rw [marksAll_singleton, marks_node rfl rfl]
    exact h.apart
  inside m hm := by
    rw [callsAll_singleton, calls, if_pos (show Label.isCall (.importCall phase) = true from rfl), List.mem_cons] at hm
    rcases hm with rfl | hm
    · exact hlies
    · exact (h.inside m hm).weaken (Nat.le_trans hlies.lo_le (Nat.le_of_lt hmid)) (Nat.le_refl _)
  nested := by
    rw [callsAll_singleton, calls, if_pos (show Label.isCall (.importCall phase) = true from rfl), List.pairwise_cons]
    refine ⟨fun m hm => .inr (.inr ?_), h.nested⟩
    have harg := h.inside m hm
    exact ⟨Nat.lt_of_lt_of_le hmid harg.lo_le, Nat.le_trans harg.le_hi hhi⟩

/-- The parts of a node that is no leaf. -/
theorem kids (h : Spaced text lo hi [.node label span ks]) (hleaf : label.isLeaf = false)
    (hshort : label.isShorthand = false) : Spaced text lo hi ks := by
  refine h.of_sublist (fun k hk => ?_) ?_ ?_
  · exact (h.regular _ (List.mem_singleton_self _)).kids k hk
  · simp [marks_node hleaf hshort]
  · rw [callsAll_singleton]
    exact callsAll_sublist label span ks

/-- Another tree with the same leaves in front of others. -/
theorem replace {u : Tree} (h : Spaced text lo hi (t :: ts)) (hregular : Regular text t → Regular text u)
    (hmarks : (marks u).Sublist (marks t)) (hcalls : (calls u).Sublist (calls t)) : Spaced text lo hi (u :: ts) := by
  refine h.of_sublist (fun v hv => ?_) ?_ ?_
  · rcases List.mem_cons.1 hv with rfl | hv
    · exact hregular (h.regular t List.mem_cons_self)
    · exact h.regular v (List.mem_cons_of_mem t hv)
  · rw [marksAll, marksAll]
    exact hmarks.append_right _
  · rw [callsAll, callsAll]
    exact hcalls.append_right _

/-- A node with another label. -/
theorem relabel {label' : Label} (h : Spaced text lo hi [.node label span ks]) (hleaf : label.isLeaf = false)
    (hshort : label.isShorthand = false) (hinner : label'.isInner = true) (hfits : Fits text label' span ks) :
    Spaced text lo hi [.node label' span ks] := (h.kids hleaf hshort).node hinner hfits

theorem hole (n : Nat) : Spaced text lo hi [.hole n] := nil.node rfl trivial

theorem withHole (h : Spaced text lo hi ts) (n : Nat) : Spaced text lo hi (.hole n :: ts) := by
  refine h.of_sublist (fun u hu => ?_) (List.Sublist.refl _) (List.Sublist.refl _)
  rcases List.mem_cons.1 hu with rfl | hu
  · exact regular_node trivial (by simp)
  · exact h.regular u hu

/-- A node whose leaves are those of its value, which its key names. -/
theorem shorthand {key value : Tree} (h : Spaced text lo hi [value]) (hinner : label.isInner = true)
    (hshort : label.isShorthand = true) (hfits : Fits text label span [key, value]) (hkey : Regular text key) :
    Spaced text lo hi [.node label span [key, value]] := by
  have hregular : Regular text (.node label span [key, value]) := by
    refine regular_node hfits fun k hk => ?_
    obtain rfl | rfl : k = key ∨ k = value := by simpa using hk
    · exact hkey
    · exact h.regular _ (List.mem_singleton_self _)
  refine h.of_sublist (by simpa using hregular) ?_ ?_
  · simp [marks_shorthand (Label.isLeaf_of_isInner hinner) hshort]
  · obtain ⟨w, s, v, hks⟩ := hregular.key hshort
    obtain ⟨rfl, rfl⟩ := by simpa using hks
    rw [callsAll_singleton, calls_inner hinner]
    exact List.Sublist.refl _

theorem leaf {start stop : Nat} (hleaf : label.isLeaf = true) (hregular : Regular text (.node label ⟨start, stop⟩ ks))
    (hstart : IsPlace text start) (hstop : IsPlace text stop) (hle : start ≤ stop) :
    Spaced text start stop [.node label ⟨start, stop⟩ ks] where
  regular := by simpa using hregular
  stands := by simp [marks_leaf hleaf, hstart, hstop, hle]
  within := by simp [marks_leaf hleaf]
  apart := by simp [marks_leaf hleaf]
  inside := by simp [hregular.calls_leaf hleaf]
  nested := by simp [hregular.calls_leaf hleaf]

end Spaced

end LiveNotes.Script
