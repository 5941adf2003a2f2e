import LiveNotes.Proofs.Scope.Operation
import Mathlib.Data.List.Count
import Mathlib.Data.List.Nodup
import Mathlib.Logic.Relation

/-! The two sides of a link between scopes: a scope names its parent, and the parent lists it once. All
operations keep both sides in agreement. So a scope that goes takes along what the lists of children lead
to from it, and nothing else of the graph changes. -/

namespace LiveNotes.ScopeGraph

open Relation

variable {V : Type} {g : ScopeGraph V} {id n p q : String} {ids : List String}

/-- The lists of children lead from a scope to another one, or it is the same. -/
def Below (g : ScopeGraph V) : String → String → Prop := ReflTransGen fun a b => b ∈ g.children a

structure Linked (g : ScopeGraph V) : Prop where
  listedOnce : ∀ id p, g.parent? id = some p → g.isLive p = true ∧ (g.children p).count id = 1
  named : ∀ p, ∀ id ∈ g.children p, g.isLive id = true ∧ g.parent? id = some p
  nodup : ∀ p, (g.children p).Nodup

/-! ### Both sides of a link -/

theorem isLive_of_parent? (h : g.parent? id = some p) : g.isLive id = true := by
  obtain ⟨s, hs, -⟩ := Option.bind_eq_some_iff.1 h
  rw [isLive_eq, hs]
  rfl

theorem isLive_of_mem_children (h : n ∈ g.children p) : g.isLive p = true := by
  unfold children at h
  rw [isLive_eq]
  cases hs : g.scope? p with
  | none => simp [hs] at h
  | some s => rfl

theorem mem_children {s : Scope V} (h : g.scope? p = some s) : n ∈ g.children p ↔ n ∈ s.children := by
  unfold children
  rw [h]
  rfl

theorem linked_of_listed (hlisted : g.Listed) (hback : ∀ p, ∀ id ∈ g.children p, g.parent? id = some p)
    (hnodup : ∀ p, (g.children p).Nodup) : g.Linked where
  listedOnce id p hp := ⟨hlisted.isLive_parent hp, List.count_eq_one_of_mem (hnodup p) (hlisted id p hp)⟩
  named p id hid := ⟨isLive_of_parent? (hback p id hid), hback p id hid⟩
  nodup := hnodup

theorem Linked.listed (h : g.Linked) : g.Listed := by
  intro n q hq
  have hcount := (h.listedOnce n q hq).2
  exact List.count_pos_iff.1 (hcount ▸ Nat.one_pos)

theorem Linked.mem_children_iff (h : g.Linked) : n ∈ g.children p ↔ g.parent? n = some p :=
  ⟨fun hn => (h.named p n hn).2, fun hp => h.listed n p hp⟩

/-! ### What a removal takes -/

theorem below_of_get?_without {t : Table (Scope V)} (hn : t.get? n ≠ none)
    (hgone : (without t ids).get? n = none) :
    ∃ i ∈ ids, ReflTransGen (fun a b => ∃ s, t.get? a = some s ∧ b ∈ s.children) i n := by
  fun_induction without t ids with
  | case1 => exact absurd hgone hn
  | case2 t id rest hid ih =>
    obtain ⟨i, hi, hreach⟩ := ih hn hgone
    exact ⟨i, List.mem_cons_of_mem id hi, hreach⟩
  | case3 t id rest s hid ih =>
    by_cases heq : n = id
    · exact ⟨id, List.mem_cons_self, heq ▸ ReflTransGen.refl⟩
    · have hleft : (t.erase id).get? n ≠ none := by rwa [Table.get?_erase, if_neg heq]
      obtain ⟨i, hi, hreach⟩ := ih hleft hgone
      have hreach' : ReflTransGen (fun a b => ∃ s, t.get? a = some s ∧ b ∈ s.children) i n := by
        refine ReflTransGen.mono ?_ _ _ hreach
        rintro a b ⟨s', hs', hb⟩
        rw [Table.get?_erase] at hs'
        split at hs'
        · contradiction
        · exact ⟨s', hs', hb⟩
      rcases List.mem_append.1 hi with hchild | hrest
      · exact ⟨id, List.mem_cons_self, ReflTransGen.head ⟨s, hid, hchild⟩ hreach'⟩
      · exact ⟨i, List.mem_cons_of_mem id hrest, hreach'⟩

theorem below_iff : g.Below id n ↔
    ReflTransGen (fun a b => ∃ s, g.scopes.get? a = some s ∧ b ∈ s.children) id n := by
  have hstep : (fun a b => b ∈ g.children a) =
      fun a b => ∃ s, g.scopes.get? a = some s ∧ b ∈ s.children := by
    funext a b
    refine propext ⟨fun hb => ?_, ?_⟩
    · obtain ⟨s, hs⟩ := Option.isSome_iff_exists.1 (isLive_of_mem_children hb)
      exact ⟨s, hs, (mem_children hs).1 hb⟩
    · rintro ⟨s, hs, hb⟩
      exact (mem_children hs).2 hb
  unfold Below
  rw [hstep]

theorem scope?_remove_of_below {i : String} (hi : i ∈ ids) (h : g.Below i n) :
    (g.remove ids).scope? n = none := by
  induction h with
  | refl => exact scope?_remove_of_mem hi
  | tail _ hb ih =>
    obtain ⟨s, hs⟩ := Option.isSome_iff_exists.1 (isLive_of_mem_children hb)
    exact scope?_remove_of_child hs ih ((mem_children hs).1 hb)

theorem scope?_remove_of_not_below (h : ∀ i ∈ ids, ¬ g.Below i n) :
    (g.remove ids).scope? n = g.scope? n := by
  cases hn : g.scope? n with
  | none => exact get?_without_of_none ids hn
  | some s =>
    cases hleft : (g.remove ids).scope? n with
    | none =>
      have hne : g.scopes.get? n ≠ none := by
        intro hnone
        exact absurd (hn.symm.trans hnone) (Option.some_ne_none s)
      obtain ⟨i, hi, hin⟩ := below_of_get?_without hne hleft
      exact absurd (below_iff.2 hin) (h i hi)
    | some s' => exact (scope?_of_remove hleft).symm.trans hn

theorem not_below_of_isLive_remove (h : (g.remove ids).isLive n = true) : ∀ i ∈ ids, ¬ g.Below i n := by
  intro i hi hbelow
  rw [isLive_eq, scope?_remove_of_below hi hbelow] at h
  contradiction

/-! ### Operations -/

theorem linked_new : (new : ScopeGraph V).Linked := by
  have hchildren : ∀ p, (new : ScopeGraph V).children p = [] := by
    intro p
    unfold children scope? new
    rw [Table.get?_cons]
    split
    · rfl
    · rfl
  refine linked_of_listed listed_new ?_ ?_
  · intro p id hid
    rw [hchildren] at hid
    contradiction
  · intro p
    rw [hchildren]
    exact List.nodup_nil

theorem Linked.of_links {g' : ScopeGraph V} (h : g.Linked) (hp : ∀ n, g'.parent? n = g.parent? n)
    (hc : ∀ n, g'.children n = g.children n) : g'.Linked := by
  refine linked_of_listed (h.listed.congr hp hc) ?_ ?_
  · intro p n hn
    rw [hc] at hn
    rw [hp]
    exact (h.named p n hn).2
  · intro p
    rw [hc]
    exact h.nodup p

theorem Linked.congr {g' : ScopeGraph V} (h : g.Linked) (hsame : ∀ n, g'.scope? n = g.scope? n) :
    g'.Linked := by
  refine h.of_links ?_ ?_
  · exact fun n => parent?_congr (hsame n)
  · exact fun n => children_congr (hsame n)

theorem children_born (g : ScopeGraph V) (hne : id ≠ p) (hp : g.isLive p) (q : String) :
    (g.born p id).children q =
      if q = id then [] else if q = p then g.children q ++ [id] else g.children q := by
  unfold children
  rw [scope?_born g p id q hne]
  by_cases hq : q = id
  · rw [if_pos hq, if_pos hq]
    rfl
  · rw [if_neg hq, if_neg hq]
    by_cases hqp : q = p
    · obtain ⟨s, hs⟩ := Option.isSome_iff_exists.1 hp
      have hs' : g.scope? p = some s := hs
      rw [if_pos hqp, if_pos hqp, hqp, hs']
      rfl
    · rw [if_neg hqp, if_neg hqp]

theorem Linked.born (h : g.Linked) (hne : id ≠ p) (hp : g.isLive p) (hid : g.scope? id = none) :
    (g.born p id).Linked := by
  -- Nothing lists the new scope yet, as all that is listed is live.
  have hunlisted : ∀ q, id ∉ g.children q := by
    intro q hmem
    have hlive := (h.named q id hmem).1
    rw [isLive_eq, hid] at hlive
    contradiction
  refine linked_of_listed (h.listed.born hne hp hid) ?_ ?_
  · intro q n hn
    rw [children_born g hne hp] at hn
    rw [parent?_born g p id n hne]
    by_cases hnid : n = id
    · subst hnid
      rw [if_pos rfl]
      split at hn
      · contradiction
      · split at hn
        · next hq => rw [hq]
        · exact absurd hn (hunlisted q)
    · rw [if_neg hnid]
      split at hn
      · contradiction
      · split at hn
        · rcases List.mem_append.1 hn with hold | hnew
          · exact (h.named q n hold).2
          · exact absurd (List.mem_singleton.1 hnew) hnid
        · exact (h.named q n hn).2
  · intro q
    rw [children_born g hne hp]
    split
    · exact List.nodup_nil
    · split
      · rw [← List.concat_eq_append]
        exact (h.nodup q).concat (hunlisted q)
      · exact h.nodup q

theorem Linked.move (h : g.Linked) (hp : g.isLive p) (hid : g.isLive id) :
    (g.move (g.parent? id) p id).Linked := by
  -- The old parent is the only one that lists the scope, and it has dropped it.
  have hunlisted : ∀ q, id ∉ if g.parent? id = some q then (g.children q).filter (· != id)
      else g.children q := by
    intro q hmem
    split at hmem
    · simp at hmem
    · next hne => exact hne (h.mem_children_iff.1 hmem)
  refine linked_of_listed (h.listed.move hp hid (g.parent? id)) ?_ ?_
  · intro q n hn
    rw [children_move g (g.parent? id) hp, List.mem_append] at hn
    rw [parent?_move g (g.parent? id) p id n hid]
    rcases hn with hold | hnew
    · have hne : n ≠ id := by
        rintro rfl
        exact hunlisted q hold
      rw [if_neg hne]
      split at hold
      · exact (h.named q n (List.mem_filter.1 hold).1).2
      · exact (h.named q n hold).2
    · split at hnew
      · next hq => rw [if_pos (List.mem_singleton.1 hnew), hq]
      · contradiction
  · intro q
    rw [children_move g (g.parent? id) hp]
    have hkept : (if g.parent? id = some q then (g.children q).filter (· != id)
        else g.children q).Nodup := by
      split
      · exact (h.nodup q).filter _
      · exact h.nodup q
    by_cases hq : q = p
    · rw [if_pos hq, ← List.concat_eq_append]
      exact hkept.concat (hunlisted q)
    · rwa [if_neg hq, List.append_nil]

theorem Linked.child (h : g.Linked) (p id : String) : (g.child p id).Linked := by
  rcases g.child_cases p id with ⟨-, heq⟩ | ⟨⟨hne, hp, hid⟩, heq⟩ | ⟨⟨-, hp, hid, -⟩, heq⟩
  · rwa [heq]
  · rw [heq]
    exact (h.born hne hp hid).congr fun _ => rfl
  · rw [heq]
    exact (h.move hp hid).congr fun _ => rfl

/-- A removal leaves no list with scopes that have gone, if none of the removed scopes is listed. -/
theorem linked_remove (hlisted : ∀ n q, g.parent? n = some q → n ∈ ids ∨ n ∈ g.children q)
    (hback : ∀ p, ∀ id ∈ g.children p, g.parent? id = some p) (hnodup : ∀ p, (g.children p).Nodup)
    (hfree : ∀ i ∈ ids, ∀ q, i ∉ g.children q) : (g.remove ids).Linked := by
  refine linked_of_listed (listed_remove hlisted) ?_ ?_
  · intro q n hn
    have hq := isLive_of_mem_children hn
    rw [children_congr (scope?_remove_of_isLive hq)] at hn
    have hnotbelow : ∀ i ∈ ids, ¬ g.Below i n := by
      intro i hi hbelow
      rcases ReflTransGen.cases_tail hbelow with heq | ⟨a, hia, han⟩
      · exact hfree i hi q (heq ▸ hn)
      · -- What leads to the child leads to its parent.
        have hqa := Option.some.inj ((hback q n hn).symm.trans (hback a n han))
        exact not_below_of_isLive_remove hq i hi (hqa ▸ hia)
    rw [parent?_congr (scope?_remove_of_not_below hnotbelow)]
    exact hback q n hn
  · intro q
    cases hq : (g.remove ids).isLive q with
    | true =>
      rw [children_congr (scope?_remove_of_isLive hq)]
      exact hnodup q
    | false =>
      unfold children
      rw [scope?_of_dead hq]
      exact List.nodup_nil

/-- The graph in which the parent of a scope no longer lists it. -/
def unhooked (g : ScopeGraph V) (id : String) : ScopeGraph V :=
  (g.parent? id).elim g (g.dropChild · id)

theorem parent?_unhooked (g : ScopeGraph V) (id n : String) : (g.unhooked id).parent? n = g.parent? n := by
  unfold unhooked
  cases g.parent? id with
  | none => rfl
  | some p => exact parent?_dropChild g p id n

theorem Linked.children_unhooked (h : g.Linked) (id q : String) :
    (g.unhooked id).children q = (g.children q).filter (· != id) := by
  have hother : g.parent? id ≠ some q → (g.children q).filter (· != id) = g.children q := by
    intro hne
    refine List.filter_eq_self.2 fun n hn => ?_
    have hnid : n ≠ id := by
      rintro rfl
      exact hne (h.named q n hn).2
    simpa using hnid
  unfold unhooked
  cases hp : g.parent? id with
  | none => exact (hother fun heq => absurd (hp.symm.trans heq) (by simp)).symm
  | some p =>
    refine (children_dropChild g p id q).trans ?_
    split
    · rfl
    · next hq => exact (hother fun heq => hq (Option.some.inj (hp.symm.trans heq)).symm).symm

theorem eq_of_below_of_dead (hid : g.scope? id = none) (h : g.Below id n) : n = id := by
  rcases ReflTransGen.cases_head h with heq | ⟨a, ha, -⟩
  · exact heq.symm
  · have hlive := isLive_of_mem_children ha
    rw [isLive_eq, hid] at hlive
    contradiction

theorem scope?_dispose_unhooked (g : ScopeGraph V) (id n : String) :
    (g.dispose id).scope? n = ((g.unhooked id).remove [id]).scope? n := by
  unfold unhooked
  cases hid : g.scope? id with
  | some s => rw [scope?_dispose hid, parent?_eq_of_scope? hid]
  | none =>
    have hparent : g.parent? id = none := by
      unfold parent?
      rw [hid]
      rfl
    rw [dispose_of_none hid, hparent, Option.elim_none]
    by_cases hn : n = id
    · rw [hn, hid]
      exact (scope?_remove_of_mem (List.mem_singleton.2 rfl)).symm
    · refine (scope?_remove_of_not_below fun i hi hbelow => hn ?_).symm
      rw [List.mem_singleton.1 hi] at hbelow
      exact eq_of_below_of_dead hid hbelow

theorem Linked.below_unhooked_iff (h : g.Linked) : (g.unhooked id).Below id n ↔ g.Below id n := by
  constructor
  · refine ReflTransGen.mono ?_ _ _
    intro a b hb
    rw [h.children_unhooked] at hb
    exact (List.mem_filter.1 hb).1
  · intro hbelow
    induction hbelow with
    | refl => exact ReflTransGen.refl
    | @tail a b _ hb ih =>
      by_cases hbid : b = id
      · -- A way that comes back to the scope may start over there.
        exact hbid ▸ ReflTransGen.refl
      · refine ih.tail ?_
        rw [h.children_unhooked]
        exact List.mem_filter.2 ⟨hb, by simpa using hbid⟩

theorem Linked.dispose (h : g.Linked) (id : String) : (g.dispose id).Linked := by
  have hremoved : ((g.unhooked id).remove [id]).Linked := by
    refine linked_remove ?_ ?_ ?_ ?_
    · intro n q hq
      rw [parent?_unhooked] at hq
      rw [h.children_unhooked]
      by_cases hn : n = id
      · exact Or.inl (List.mem_singleton.2 hn)
      · exact Or.inr (List.mem_filter.2 ⟨h.mem_children_iff.2 hq, by simpa using hn⟩)
    · intro q n hn
      rw [h.children_unhooked] at hn
      rw [parent?_unhooked]
      exact (h.named q n (List.mem_filter.1 hn).1).2
    · intro q
      rw [h.children_unhooked]
      exact (h.nodup q).filter _
    · intro i hi q hmem
      rw [h.children_unhooked, List.mem_singleton.1 hi] at hmem
      simp at hmem
  exact hremoved.congr (scope?_dispose_unhooked g id)

theorem Linked.disposeDescendants (h : g.Linked) (id : String) : (g.disposeDescendants id).Linked := by
  cases hid : g.scope? id with
  | none => rwa [disposeDescendants_of_none hid]
  | some s =>
    have hparent : ∀ n, (g.modify id fun s => { s with children := [] }).parent? n = g.parent? n :=
      parent?_modify fun _ => rfl
    have hchildren : ∀ q, (g.modify id fun s => { s with children := [] }).children q =
        if q = id then [] else g.children q := by
      intro q
      unfold children
      rw [scope?_modify]
      by_cases hq : q = id
      · rw [if_pos hq, if_pos hq, hq, hid]
        rfl
      · rw [if_neg hq, if_neg hq]
    have hmem : ∀ n, n ∈ s.children ↔ g.parent? n = some id := by
      intro n
      rw [← mem_children hid]
      exact h.mem_children_iff
    have hremoved : ((g.modify id fun s => { s with children := [] }).remove s.children).Linked := by
      refine linked_remove ?_ ?_ ?_ ?_
      · intro n q hq
        rw [hparent] at hq
        rw [hchildren]
        by_cases hqid : q = id
        · exact Or.inl ((hmem n).2 (hqid ▸ hq))
        · rw [if_neg hqid]
          exact Or.inr (h.mem_children_iff.2 hq)
      · intro q n hn
        rw [hchildren] at hn
        rw [hparent]
        split at hn
        · contradiction
        · exact (h.named q n hn).2
      · intro q
        rw [hchildren]
        split
        · exact List.nodup_nil
        · exact h.nodup q
      · intro i hi q hq
        rw [hchildren] at hq
        split at hq
        · contradiction
        · next hne => exact hne (Option.some.inj ((h.named q i hq).2.symm.trans ((hmem i).1 hi)))
    exact hremoved.congr (scope?_disposeDescendants hid)

theorem Linked.apply (h : g.Linked) (op : Operation V) : (op.apply g).Linked := by
  cases op with
  | child parent id => exact h.child parent id
  | dispose id => exact h.dispose id
  | disposeDescendants id => exact h.disposeDescendants id
  | _ => exact h.of_links (parent?_apply (by exact trivial)) (children_apply (by exact trivial))

theorem Reachable.linked (h : g.Reachable) : g.Linked := by
  induction h with
  | new => exact linked_new
  | apply op _ ih => exact ih.apply op

theorem Reachable.parent?_ne (h : g.Reachable) (id : String) : g.parent? id ≠ some id := by
  induction h with
  | new => simp [parent?_new]
  | apply op _ ih =>
    intro hid
    rcases parent?_of_apply op hid with hold | ⟨-, hne⟩
    · exact ih hold
    · exact hne rfl

/-! ### Scopes that stay -/

theorem scope?_unhooked (g : ScopeGraph V) (id n : String) :
    (g.unhooked id).scope? n =
      if g.parent? id = some n then
        (g.scope? n).map fun s => { s with children := s.children.filter (· != id) }
      else g.scope? n := by
  unfold unhooked
  cases g.parent? id with
  | none => rfl
  | some p =>
    refine (scope?_dropChild g p id n).trans ?_
    by_cases hn : n = p
    · rw [if_pos hn, if_pos (congrArg some hn.symm)]
    · rw [if_neg hn, if_neg fun heq => hn (Option.some.inj heq).symm]

theorem Linked.scope?_dispose_of_below (h : g.Linked) (hbelow : g.Below id n) :
    (g.dispose id).scope? n = none := by
  rw [scope?_dispose_unhooked]
  exact scope?_remove_of_below (List.mem_singleton.2 rfl) (h.below_unhooked_iff.2 hbelow)

theorem Linked.scope?_dispose_of_not_below (h : g.Linked) (hbelow : ¬ g.Below id n) :
    (g.dispose id).scope? n =
      if g.parent? id = some n then
        (g.scope? n).map fun s => { s with children := s.children.filter (· != id) }
      else g.scope? n := by
  rw [scope?_dispose_unhooked, ← scope?_unhooked]
  refine scope?_remove_of_not_below fun i hi hin => hbelow ?_
  rw [List.mem_singleton.1 hi] at hin
  exact h.below_unhooked_iff.1 hin

theorem Linked.isLive_dispose (h : g.Linked) :
    (g.dispose id).isLive n = true ↔ g.isLive n = true ∧ ¬ g.Below id n := by
  by_cases hbelow : g.Below id n
  · rw [isLive_eq, h.scope?_dispose_of_below hbelow]
    simp [hbelow]
  · rw [isLive_eq, isLive_eq, h.scope?_dispose_of_not_below hbelow]
    split
    · simp [hbelow]
    · simp [hbelow]

/-- What the children of a scope do not lead to stays when its descendants are disposed of. -/
theorem scope?_disposeDescendants_of_clear (hclear : ∀ c ∈ g.children id, ¬ g.Below c n) :
    (g.disposeDescendants id).scope? n =
      (g.modify id fun s => { s with children := [] }).scope? n := by
  cases hid : g.scope? id with
  | none =>
    rw [disposeDescendants_of_none hid, scope?_modify]
    split
    · next hn => rw [hn, hid, Option.map_none]
    · rfl
  | some s =>
    have hfewer : ∀ a b, b ∈ (g.modify id fun s => { s with children := [] }).children a →
        b ∈ g.children a := by
      intro a b hb
      by_cases ha : a = id
      · have hnone : (g.modify id fun s => { s with children := [] }).children a = [] := by
          unfold children
          rw [ha, scope?_modify_self, hid]
          rfl
        rw [hnone] at hb
        contradiction
      · rwa [children_congr (scope?_modify_of_ne ha)] at hb
    have hkept : ∀ c ∈ s.children, ¬ (g.modify id fun s => { s with children := [] }).Below c n := by
      intro c hc hcn
      exact hclear c ((mem_children hid).2 hc) (ReflTransGen.mono hfewer _ _ hcn)
    rw [scope?_disposeDescendants hid, scope?_remove_of_not_below hkept]

theorem scope?_disposeDescendants_of_not_below (hbelow : ¬ g.Below id n) :
    (g.disposeDescendants id).scope? n = g.scope? n := by
  have hne : n ≠ id := by
    rintro rfl
    exact hbelow ReflTransGen.refl
  have hclear : ∀ c ∈ g.children id, ¬ g.Below c n :=
    fun c hc hcn => hbelow (ReflTransGen.head hc hcn)
  rw [scope?_disposeDescendants_of_clear hclear, scope?_modify_of_ne hne]

/-- A child that is made or moved changes nothing of scopes other than the child, its new parent and the
one it had. -/
theorem scope?_child_of_ne (hid : n ≠ id) (hp : n ≠ p) (hup : g.parent? id ≠ some n) :
    (g.child p id).scope? n = g.scope? n := by
  rcases g.child_cases p id with ⟨-, heq⟩ | ⟨⟨hne, -, -⟩, heq⟩ | ⟨-, heq⟩
  · rw [heq]
  · rw [heq, scope?_notify, scope?_born g p id n hne, if_neg hid, if_neg hp]
  · have hset : ∀ g' : ScopeGraph V, ((g'.modify id fun s => { s with parent := some p }).addChild p
        id).scope? n = g'.scope? n := by
      intro g'
      rw [scope?_addChild, if_neg hp, scope?_modify_of_ne hid]
    rw [heq, scope?_notify]
    cases hold : g.parent? id with
    | none => exact hset g
    | some o =>
      have ho : n ≠ o := by
        rintro rfl
        exact hup hold
      exact (hset (g.dropChild o id)).trans (by rw [scope?_dropChild, if_neg ho])

theorem isLive_born (g : ScopeGraph V) (hne : id ≠ p) :
    (g.born p id).isLive n = true ↔ g.isLive n = true ∨ n = id := by
  rw [isLive_eq, scope?_born g p id n hne]
  by_cases hn : n = id
  · simp [hn]
  · have hsame : (if n = p then (g.scope? n).map fun s => { s with children := s.children ++ [id] }
        else g.scope? n).isSome = g.isLive n := by
      split
      · rw [Option.isSome_map, isLive_eq]
      · rfl
    rw [if_neg hn, hsame]
    simp [hn]

theorem isLive_child (g : ScopeGraph V) (p id n : String) :
    (g.child p id).isLive n = true ↔
      g.isLive n = true ∨ n = id ∧ id ≠ p ∧ g.isLive p = true := by
  rcases g.child_cases p id with ⟨hnothing, heq⟩ | ⟨⟨hne, hp, -⟩, heq⟩ | ⟨⟨-, -, hid, -⟩, heq⟩
  · rw [heq]
    constructor
    · exact Or.inl
    · rintro (hn | ⟨rfl, hne, hp⟩)
      · exact hn
      · rcases hnothing with rfl | hdead | hup
        · contradiction
        · rw [hp] at hdead
          contradiction
        · exact isLive_of_parent? hup
  · rw [heq, isLive_notify, isLive_born g hne]
    simp [hne, hp]
  · rw [heq, isLive_notify, isLive_move]
    constructor
    · exact Or.inl
    · rintro (hn | ⟨rfl, -⟩)
      · exact hn
      · exact hid

/-- A scope that is moved keeps all but its parent. -/
theorem scope?_child_self {s : Scope V} (hup : g.parent? id ≠ some id) (hid : g.scope? id = some s)
    (p : String) : (g.child p id).scope? id =
      some { s with parent := if id = p ∨ g.isLive p = false then s.parent else some p } := by
  have hparent := parent?_eq_of_scope? hid
  rcases g.child_cases p id with ⟨hnothing, heq⟩ | ⟨⟨-, -, hdead⟩, -⟩ | ⟨⟨hne, hp, -, -⟩, heq⟩
  · rw [heq, hid]
    split
    · rfl
    · next hsome =>
      rcases hnothing with hsame | hdead | hchild
      · exact absurd (Or.inl hsame) hsome
      · exact absurd (Or.inr hdead) hsome
      · rw [← hchild, hparent]
  · rw [hid] at hdead
    contradiction
  · have hset : ∀ g' : ScopeGraph V, g'.scope? id = some s →
        ((g'.modify id fun s => { s with parent := some p }).addChild p id).scope? id =
          some { s with parent := some p } := by
      intro g' hg'
      rw [scope?_addChild, if_neg hne, scope?_modify_self, hg']
      rfl
    rw [heq, scope?_notify, if_neg (by simp [hne, hp])]
    cases hold : g.parent? id with
    | none => exact hset g hid
    | some o =>
      have ho : id ≠ o := by
        rintro rfl
        exact hup hold
      refine hset (g.dropChild o id) ?_
      rw [scope?_dropChild, if_neg ho, hid]

/-! ### All graphs -/

/-- Both sides of all links agree. A scope that is disposed of takes along exactly those below it, and of
those that stay only its parent changes, by the list of children. A scope that is moved keeps all but its
parent. -/
theorem linked_dispose_child (h : g.Reachable) :
    g.Linked ∧
      (∀ id n, (g.dispose id).isLive n = true ↔ g.isLive n = true ∧ ¬ g.Below id n) ∧
      (∀ id n, ¬ g.Below id n → (g.dispose id).scope? n =
        if g.parent? id = some n then
          (g.scope? n).map fun s => { s with children := s.children.filter (· != id) }
        else g.scope? n) ∧
      ∀ p id s, g.scope? id = some s → (g.child p id).scope? id =
        some { s with parent := if id = p ∨ g.isLive p = false then s.parent else some p } := by
  refine ⟨h.linked, ?_, ?_, ?_⟩
  · exact fun id n => h.linked.isLive_dispose
  · intro id n hbelow
    exact h.linked.scope?_dispose_of_not_below hbelow
  · intro p id s hid
    exact scope?_child_self (h.parent?_ne id) hid p

/-- A scope with a blocked one below it, which was moved there with what it binds. -/
def moved : ScopeGraph Nat :=
  Operation.run [.child rootScopeId "page", .child "page" "0", .child rootScopeId "1",
    .setMany "1" [("x", 7)], .block "1", .child "page" "1"] new

theorem linked_dispose_child_moved :
    moved.Reachable ∧ moved.Linked ∧ moved.children "page" = ["0", "1"] ∧
      (moved.Below "page" "1" ∧ (moved.dispose "page").isLive "1" = false) ∧
      (¬ moved.Below "0" "page" ∧ (moved.dispose "0").scope? "page" =
        (moved.scope? "page").map fun s => { s with children := s.children.filter (· != "0") }) ∧
      moved.scope? "1" = some ⟨some "page", [], [("x", 7)], true, [], 3⟩ ∧
      (moved.child "0" "1").scope? "1" = some ⟨some "0", [], [("x", 7)], true, [], 3⟩ := by
  have hreach : moved.Reachable := Reachable.new.run _
  obtain ⟨hlinked, hlive, hkept, hmoved⟩ := linked_dispose_child hreach
  have hone : moved.scope? "1" = some ⟨some "page", [], [("x", 7)], true, [], 3⟩ := rfl
  have hbelow : moved.Below "page" "1" := ReflTransGen.single (by decide +kernel)
  have hleaf : ¬ moved.Below "0" "page" := by
    intro hbelow
    rcases ReflTransGen.cases_head hbelow with heq | ⟨a, ha, -⟩
    · exact absurd heq (by decide)
    · have hnone : moved.children "0" = [] := by decide +kernel
      rw [hnone] at ha
      contradiction
  refine ⟨hreach, hlinked, by decide +kernel, ⟨hbelow, ?_⟩, ⟨hleaf, ?_⟩, hone, hmoved "0" "1" _ hone⟩
  · have hgone := hlive "page" "1"
    simpa [hbelow] using hgone
  · exact (hkept "0" "page" hleaf).trans (if_pos (by decide +kernel))

end LiveNotes.ScopeGraph
