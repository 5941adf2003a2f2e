import LiveNotes.Proofs.Script.Scoping
import Mathlib.Data.List.Forall2

/-! Trees that differ in what stands for the names that they read, and in where they stand. They bind the same names. -/

namespace LiveNotes.Script

/-- The trees are the same up to their spans and to what stands for the reads of names. -/
inductive Like : Tree → Tree → Prop
  | read {x : String} {m : Span} {t : Tree} : Like (.node (.read x) m []) t
  | shorthand {kind : PropertyKind} {computed : Bool} {w x : String} {span s m : Span} {t : Tree} :
      Like (.node (.property kind computed true) span [.node (.name w) s [], .node (.read x) m []]) t
  | node {label : Label} {span span' : Span} {ks ks' : List Tree} (h : List.Forall₂ Like ks ks') :
      Like (.node label span ks) (.node label span' ks')

variable {x : String} {t t' k : Tree} {label : Label} {span : Span} {ks ks' ts ts' : List Tree}

theorem Like.kids (h : Like (.node label span ks) t') (hread : ∀ x, label ≠ .read x)
    (hshort : ∀ kind computed, label ≠ .property kind computed true) :
    ∃ span' ks', t' = .node label span' ks' ∧ List.Forall₂ Like ks ks' := by
  cases h with
  | read => exact absurd rfl (hread _)
  | shorthand => exact absurd rfl (hshort _ _)
  | node h => exact ⟨_, _, rfl, h⟩

theorem Like.label_eq (h : Like t t') (hread : ∀ x, t.label ≠ .read x)
    (hshort : ∀ kind computed, t.label ≠ .property kind computed true) : t'.label = t.label := by
  obtain ⟨label, span, ks⟩ := t
  obtain ⟨_, _, rfl, _⟩ := h.kids hread hshort
  rfl

theorem forall₂_of_getElem? {R : Tree → Tree → Prop} (hlength : ts.length = ts'.length)
    (h : ∀ (i : Nat) t t', ts[i]? = some t → ts'[i]? = some t' → R t t') : List.Forall₂ R ts ts' :=
  List.forall₂_iff_get.2 ⟨hlength, fun i hi hi' =>
    h i _ _ (List.getElem?_eq_getElem hi) (List.getElem?_eq_getElem hi')⟩

theorem rel_of_forall₂ {R : Tree → Tree → Prop} (h : List.Forall₂ R ts ts') {i : Nat} (ht : ts[i]? = some t)
    (ht' : ts'[i]? = some t') : R t t' := by
  obtain ⟨hi, rfl⟩ := List.getElem?_eq_some_iff.1 ht
  obtain ⟨hi', rfl⟩ := List.getElem?_eq_some_iff.1 ht'
  exact (List.forall₂_iff_get.1 h).2 i hi hi'

theorem exists_mem_of_forall₂ {R : Tree → Tree → Prop} (h : List.Forall₂ R ts ts') (ht : t ∈ ts) :
    ∃ t' ∈ ts', R t t' := by
  induction h with
  | nil => simp at ht
  | @cons u u' us us' hu _ ih =>
    rcases List.mem_cons.1 ht with rfl | ht
    · exact ⟨u', List.mem_cons_self, hu⟩
    · obtain ⟨t', ht', h⟩ := ih ht
      exact ⟨t', List.mem_cons_of_mem u' ht', h⟩

theorem Binds.like (h : Binds x t) (hlike : Like t t') : Binds x t' := by
  induction h generalizing t' with
  | name =>
    obtain ⟨_, _, rfl, _⟩ := hlike.kids (by simp) (by simp)
    exact .name
  | property _ ih =>
    obtain ⟨_, _, rfl, hks⟩ := hlike.kids (by simp) (by simp)
    obtain _ | ⟨_, _ | ⟨hp, _ | _⟩⟩ := hks
    exact .property (ih hp)
  | withDefault _ ih =>
    obtain ⟨_, _, rfl, hks⟩ := hlike.kids (by simp) (by simp)
    obtain _ | ⟨hp, _ | ⟨_, _ | _⟩⟩ := hks
    exact .withDefault (ih hp)
  | decorated _ ih =>
    obtain ⟨_, _, rfl, hks⟩ := hlike.kids (by simp) (by simp)
    obtain _ | ⟨_, _ | ⟨hp, _ | _⟩⟩ := hks
    exact .decorated (ih hp)
  | part hlabel hp _ ih =>
    obtain ⟨_, _, rfl, hks⟩ := hlike.kids (by rintro _ rfl; simp at hlabel) (by rintro _ _ rfl; simp at hlabel)
    obtain ⟨p', hp', hlike⟩ := exists_mem_of_forall₂ hks hp
    exact .part hlabel hp' (ih hlike)

theorem Declares.like (h : Declares x t) (hlike : Like t t') : Declares x t' := by
  cases h with
  | declarator hd h =>
    obtain ⟨_, _, rfl, hks⟩ := hlike.kids (by simp) (by simp)
    obtain ⟨d', hd', hlike⟩ := exists_mem_of_forall₂ hks hd
    obtain ⟨_, _, rfl, hparts⟩ := hlike.kids (by simp) (by simp)
    obtain _ | ⟨hp, _ | ⟨_, _ | _⟩⟩ := hparts
    exact .declarator hd' (h.like hp)
  | function h =>
    obtain ⟨_, _, rfl, hks⟩ := hlike.kids (by simp) (by simp)
    obtain _ | ⟨hname, _⟩ := hks
    exact .function (h.like hname)
  | class_ h =>
    obtain ⟨_, _, rfl, hks⟩ := hlike.kids (by simp) (by simp)
    obtain _ | ⟨hname, _⟩ := hks
    exact .class_ (h.like hname)
  | enum h =>
    obtain ⟨_, _, rfl, hks⟩ := hlike.kids (by simp) (by simp)
    obtain _ | ⟨hname, _⟩ := hks
    exact .enum (h.like hname)

/-- A leaf hoists no name. -/
theorem not_hoists_leaf : ¬Hoists x (.node label span []) := by
  rintro (⟨⟨hd⟩⟩ | ⟨_, _, hk⟩)
  · simp at hd
  · simp at hk

theorem Hoists.like (h : Hoists x t) (hlike : Like t t') : Hoists x t' := by
  induction h generalizing t' with
  | var h =>
    obtain ⟨_, _, rfl, _⟩ := hlike.kids (by simp) (by simp)
    exact .var (h.like hlike)
  | inside hkeeps hlabel hk h ih =>
    cases hlike with
    | read => simp at hk
    | shorthand =>
      simp only [List.mem_cons, List.not_mem_nil, or_false] at hk
      rcases hk with rfl | rfl
      · exact absurd h not_hoists_leaf
      · exact absurd h not_hoists_leaf
    | node hks =>
      obtain ⟨k', hk', hlike⟩ := exists_mem_of_forall₂ hks hk
      exact .inside hkeeps hlabel hk' (ih hlike)

theorem DeclaresAlone.like (h : DeclaresAlone x t) (hlike : Like t t') : DeclaresAlone x t' := by
  induction h generalizing t' with
  | function h =>
    obtain ⟨_, _, rfl, _⟩ := hlike.kids (by simp) (by simp)
    exact .function (h.like hlike)
  | labeled hk _ ih =>
    obtain ⟨_, _, rfl, hks⟩ := hlike.kids (by simp) (by simp)
    obtain ⟨k', hk', hlike⟩ := exists_mem_of_forall₂ hks hk
    exact .labeled hk' (ih hlike)
  | branch hlabel hk _ ih =>
    obtain ⟨_, _, rfl, hks⟩ := hlike.kids (by rintro _ rfl; simp at hlabel) (by rintro _ _ rfl; simp at hlabel)
    obtain ⟨k', hk', hlike⟩ := exists_mem_of_forall₂ hks hk
    exact .branch hlabel hk' (ih hlike)

theorem Like.importedName_eq (hlike : Like k t') (h : importedName k = some x) : importedName t' = some x := by
  have hlabel : t'.label = k.label :=
    hlike.label_eq (fun _ hlabel => by simp [importedName, hlabel] at h)
      (fun _ _ hlabel => by simp [importedName, hlabel] at h)
  rw [importedName, hlabel]
  exact h

theorem DeclaresHere.like (h : DeclaresHere x t) (hlike : Like t t') : DeclaresHere x t' := by
  cases h with
  | import_ hk h =>
    obtain ⟨_, _, rfl, hks⟩ := hlike.kids (by simp) (by simp)
    obtain ⟨k', hk', hlike⟩ := exists_mem_of_forall₂ hks hk
    exact .import_ hk' (hlike.importedName_eq h)
  | exported h =>
    obtain ⟨_, _, rfl, hks⟩ := hlike.kids (by simp) (by simp)
    obtain _ | ⟨hd, _ | _⟩ := hks
    exact .exported (h.like hd)
  | default h =>
    obtain ⟨_, _, rfl, hks⟩ := hlike.kids (by simp) (by simp)
    obtain _ | ⟨hd, _ | _⟩ := hks
    exact .default (h.like hd)
  | plain h => exact .plain (h.like hlike)
  | alone h => exact .alone (h.like hlike)

theorem BindsInside.like (h : BindsInside x label ks) (hks : List.Forall₂ Like ks ks') : BindsInside x label ks' := by
  have hparams {params params' p : Tree} (hlike : Like params params') (hp : p ∈ params.kids) (h : Binds x p) :
      ∃ p' ∈ params'.kids, Binds x p' := by
    cases hlike with
    | read => simp at hp
    | shorthand =>
      simp only [Tree.kids_node, List.mem_cons, List.not_mem_nil, or_false] at hp
      rcases hp with rfl | rfl
      · cases h; simp_all
      · cases h; simp_all
    | node hks =>
      obtain ⟨p', hp', hlike⟩ := exists_mem_of_forall₂ hks hp
      exact ⟨p', hp', h.like hlike⟩
  cases h with
  | hoisted hlabel hk h =>
    obtain ⟨k', hk', hlike⟩ := exists_mem_of_forall₂ hks hk
    exact .hoisted hlabel hk' (h.like hlike)
  | statement hlabel hk h =>
    obtain ⟨k', hk', hlike⟩ := exists_mem_of_forall₂ hks hk
    exact .statement hlabel hk' (h.like hlike)
  | functionName h =>
    obtain _ | ⟨hname, _⟩ := hks
    exact .functionName (h.like hname)
  | functionParam hp h =>
    obtain _ | ⟨_, _ | ⟨hlike, _⟩⟩ := hks
    obtain ⟨p', hp', h⟩ := hparams hlike hp h
    exact .functionParam hp' h
  | declaredParam hp h =>
    obtain _ | ⟨_, _ | ⟨hlike, _⟩⟩ := hks
    obtain ⟨p', hp', h⟩ := hparams hlike hp h
    exact .declaredParam hp' h
  | arrowParam hp h =>
    obtain _ | ⟨hlike, _⟩ := hks
    obtain ⟨p', hp', h⟩ := hparams hlike hp h
    exact .arrowParam hp' h
  | name hlabel h =>
    obtain _ | ⟨hname, _⟩ := hks
    exact .name hlabel (h.like hname)
  | loop hlabel h =>
    obtain _ | ⟨hhead, _⟩ := hks
    exact .loop hlabel (h.like hhead)
  | loopAlone hlabel hk h =>
    obtain _ | ⟨_, hrest⟩ := hks
    obtain ⟨k', hk', hlike⟩ := exists_mem_of_forall₂ hrest hk
    exact .loopAlone hlabel hk' (h.like hlike)
  | case hc hk h =>
    obtain _ | ⟨_, hcases⟩ := hks
    obtain ⟨c', hc', hlike⟩ := exists_mem_of_forall₂ hcases hc
    cases hlike with
    | read => simp at hk
    | shorthand =>
      obtain rfl := by simpa using hk
      simpa [lexicalNames, declaredNames, aloneNames] using mem_lexicalNames.2 h
    | node hparts =>
      obtain ⟨k', hk', hlike⟩ := exists_mem_of_forall₂ (List.forall₂_drop 1 hparts) hk
      exact .case hc' hk' (h.like hlike)

end LiveNotes.Script
