import LiveNotes.Document.Preview
import LiveNotes.Proofs.Numbered
import LiveNotes.Proofs.Scope.Ancestry
import LiveNotes.Proofs.Scope.Links

/-! A graph with the scopes of one document alone: the root, the page below it, and below that the scopes
of fragments, each the only child of the one before. Such a graph is known by how many scopes it has. It
is grown at its lower end and cut off at any place, and what is bound in a scope is seen from all below. -/

namespace LiveNotes

open Relation

/-- The scopes of a document from the root down. -/
def spine (page : String) : Nat → String
  | 0 => rootScopeId
  | 1 => page
  | i + 2 => fragmentScopeId page i

namespace ScopeGraph

variable {V : Type} {g g' : ScopeGraph V} {page id n name : String} {i j k m : Nat}

/-- What a scope itself binds. -/
def bindings (g : ScopeGraph V) (id : String) : Table V := ((g.scope? id).map (·.bindings)).getD []

/-- The scopes of a graph are the first ones of a document, each the only child of the one before. -/
structure Spine (g : ScopeGraph V) (page : String) (count : Nat) : Prop where
  live : ∀ id, g.isLive id = true ↔ ∃ i < count, id = spine page i
  top : g.parent? rootScopeId = none
  parent : ∀ i, i + 1 < count → g.parent? (spine page (i + 1)) = some (spine page i)
  child : ∀ i, i + 1 < count → g.children (spine page i) = [spine page (i + 1)]
  last : ∀ i, count ≤ i + 1 → g.children (spine page i) = []

theorem unlinked_bindings : Unlinked fun s : Scope V => s.bindings := fun _ _ _ => rfl

/-- No scope that is there is bound anew by a child, and a new one binds nothing. -/
theorem bindings_child (g : ScopeGraph V) (p id n : String) : (g.child p id).bindings n = g.bindings n :=
  part_child unlinked_bindings (fun _ _ => rfl) p id n

/-! ### Places -/

theorem spine_injective (document : DocumentKey) : Function.Injective (spine document.scopeId) := by
  have hroot : ∀ rest, rootScopeId ≠ document.scopeId ++ rest := by
    intro rest h
    have hfirst := congrArg (·.toList.head?) h
    cases document with
    | file path =>
      simp [rootScopeId, DocumentKey.scopeId, pageScopeId, String.toList_append] at hfirst
    | anonymous key =>
      simp [rootScopeId, DocumentKey.scopeId, anonymousScopeId, String.toList_append] at hfirst
  have hpage : rootScopeId ≠ document.scopeId := by
    intro h
    exact hroot "" (by rwa [String.append_empty])
  have hfragment : ∀ i, rootScopeId ≠ fragmentScopeId document.scopeId i := by
    intro i h
    refine hroot ("/" ++ toString i) ?_
    rw [h, fragmentScopeId, String.append_assoc]
  intro i j h
  rcases i with _ | _ | i
  · rcases j with _ | _ | j
    · rfl
    · exact absurd h hpage
    · exact absurd h (hfragment j)
  · rcases j with _ | _ | j
    · exact absurd h.symm hpage
    · rfl
    · exact absurd h.symm (fragmentScopeId_ne _ j)
  · rcases j with _ | _ | j
    · exact absurd h.symm (hfragment i)
    · exact absurd h (fragmentScopeId_ne _ i)
    · rw [fragmentScopeId_injective _ h]

theorem spine_new (page : String) : (new : ScopeGraph V).Spine page 1 where
  live id := by
    have hlive : (new : ScopeGraph V).isLive id = true ↔ id = rootScopeId := by
      rw [isLive_eq]
      unfold scope? new
      rw [Table.get?_cons]
      split
      · next h => simp [h]
      · next h => simpa [Table.get?] using h
    rw [hlive]
    constructor
    · rintro rfl
      exact ⟨0, Nat.one_pos, rfl⟩
    · rintro ⟨i, hi, rfl⟩
      rw [Nat.lt_one_iff.1 hi]
      rfl
  top := parent?_new _
  parent i hi := by omega
  child i hi := by omega
  last i _ := by
    unfold children scope? new
    rw [Table.get?_cons]
    split
    · rfl
    · rfl

namespace Spine

theorem isLive (h : g.Spine page m) (hi : i < m) : g.isLive (spine page i) = true :=
  (h.live _).2 ⟨i, hi, rfl⟩

theorem isLive_iff (h : g.Spine page m) (hinj : Function.Injective (spine page)) :
    g.isLive (spine page i) = true ↔ i < m := by
  rw [h.live]
  constructor
  · rintro ⟨j, hj, heq⟩
    rwa [hinj heq]
  · exact fun hi => ⟨i, hi, rfl⟩

theorem scope?_eq_none (h : g.Spine page m) (hinj : Function.Injective (spine page)) (hi : m ≤ i) :
    g.scope? (spine page i) = none := by
  have hdead : ¬ g.isLive (spine page i) = true := by
    rw [h.isLive_iff hinj]
    omega
  rw [isLive_eq] at hdead
  simpa using hdead

theorem pos (h : g.Spine page m) (hlive : g.isLive id = true) : 0 < m := by
  obtain ⟨i, hi, -⟩ := (h.live id).1 hlive
  omega

theorem mem_children (h : g.Spine page m) (hn : n ∈ g.children (spine page i)) :
    i + 1 < m ∧ n = spine page (i + 1) := by
  by_cases hi : i + 1 < m
  · rw [h.child i hi, List.mem_singleton] at hn
    exact ⟨hi, hn⟩
  · rw [h.last i (Nat.not_lt.1 hi)] at hn
    contradiction

theorem exists_of_parent? (h : g.Spine page m) (hn : g.parent? n = some id) :
    ∃ i, i + 1 < m ∧ n = spine page (i + 1) ∧ id = spine page i := by
  obtain ⟨i, hi, rfl⟩ := (h.live n).1 (isLive_of_parent? hn)
  cases i with
  | zero =>
    have htop : g.parent? (spine page 0) = none := h.top
    rw [htop] at hn
    contradiction
  | succ i =>
    rw [h.parent i hi, Option.some.injEq] at hn
    exact ⟨i, hi, rfl, hn.symm⟩

theorem linked (h : g.Spine page m) : g.Linked := by
  refine linked_of_listed ?_ ?_ ?_
  · intro n p hp
    obtain ⟨i, hi, rfl, rfl⟩ := h.exists_of_parent? hp
    rw [h.child i hi]
    exact List.mem_singleton.2 rfl
  · intro p n hn
    obtain ⟨i, -, rfl⟩ := (h.live p).1 (isLive_of_mem_children hn)
    obtain ⟨hi, rfl⟩ := h.mem_children hn
    exact h.parent i hi
  · intro p
    cases hp : g.children p with
    | nil => exact List.nodup_nil
    | cons c cs =>
      obtain ⟨i, -, rfl⟩ := (h.live p).1 (isLive_of_mem_children (hp ▸ List.mem_cons_self))
      obtain ⟨hi, -⟩ := h.mem_children (hp ▸ List.mem_cons_self)
      rw [← hp, h.child i hi]
      exact List.nodup_singleton _

/-- When both sides of all links agree, the lists of children are enough. -/
theorem of_linked (hinj : Function.Injective (spine page)) (hlinked : g.Linked)
    (hlive : ∀ id, g.isLive id = true ↔ ∃ i < m, id = spine page i)
    (hchild : ∀ i, i + 1 < m → g.children (spine page i) = [spine page (i + 1)])
    (hlast : ∀ i, i + 1 = m → g.children (spine page i) = []) : g.Spine page m := by
  have hempty : ∀ i, m ≤ i + 1 → g.children (spine page i) = [] := by
    intro i hi
    refine List.eq_nil_iff_forall_not_mem.2 fun n hn => ?_
    obtain ⟨j, hj, heq⟩ := (hlive _).1 (isLive_of_mem_children hn)
    obtain rfl := hinj heq
    rw [hlast i (by omega)] at hn
    contradiction
  have hparent : ∀ i p, g.parent? (spine page i) = some p → i ≠ 0 := by
    rintro i p hp rfl
    have hmem := hlinked.listed _ _ hp
    obtain ⟨j, -, rfl⟩ := (hlive p).1 (isLive_of_mem_children hmem)
    by_cases hj : j + 1 < m
    · rw [hchild j hj, List.mem_singleton] at hmem
      exact absurd (hinj hmem) (Nat.succ_ne_zero j).symm
    · rw [hempty j (Nat.not_lt.1 hj)] at hmem
      contradiction
  refine ⟨hlive, ?_, ?_, hchild, hempty⟩
  · exact Option.eq_none_iff_forall_ne_some.2 fun p hp => hparent 0 p hp rfl
  · intro i hi
    have hmem : spine page (i + 1) ∈ g.children (spine page i) := by
      rw [hchild i hi]
      exact List.mem_singleton.2 rfl
    exact (hlinked.named _ _ hmem).2

theorem congr (h : g.Spine page m) (hlive : ∀ n, g'.isLive n = g.isLive n)
    (hparent : ∀ n, g'.parent? n = g.parent? n) (hchildren : ∀ n, g'.children n = g.children n) :
    g'.Spine page m where
  live id := by rw [hlive, h.live]
  top := by rw [hparent, h.top]
  parent i hi := by rw [hparent, h.parent i hi]
  child i hi := by rw [hchildren, h.child i hi]
  last i hi := by rw [hchildren, h.last i hi]

theorem apply (h : g.Spine page m) {op : Operation V} (hop : op.KeepsLinks) :
    (op.apply g).Spine page m := h.congr (isLive_apply hop) (parent?_apply hop) (children_apply hop)

theorem run (h : g.Spine page m) {ops : List (Operation V)} (hops : ∀ op ∈ ops, op.KeepsLinks) :
    (Operation.run ops g).Spine page m := by
  induction ops generalizing g with
  | nil => exact h
  | cons op ops ih =>
    exact ih (h.apply (hops op List.mem_cons_self)) fun o ho => hops o (List.mem_cons_of_mem op ho)

/-! ### Growth -/

/-- The next scope is made at the lower end; any other is there. -/
theorem grow (h : g.Spine page m) (hinj : Function.Injective (spine page)) (hi : i < m) :
    (g.child (spine page i) (spine page (i + 1))).Spine page (max m (i + 2)) := by
  rcases Nat.lt_or_ge (i + 1) m with hin | hend
  · obtain ⟨s, hs⟩ := Option.isSome_iff_exists.1 (h.isLive hin)
    have hparent := (parent?_eq_of_scope? hs).symm.trans (h.parent i hin)
    rw [child_of_child hs hparent, Nat.max_eq_left (by omega)]
    exact h
  · obtain rfl : m = i + 1 := by omega
    have hne : spine page (i + 1) ≠ spine page i := fun heq => by simpa using hinj heq
    have hdead := h.scope?_eq_none hinj (Nat.le_refl (i + 1))
    have hlinked : (g.child (spine page i) (spine page (i + 1))).Linked := h.linked.child _ _
    rw [child_of_dead hne (h.isLive hi) hdead] at hlinked ⊢
    have hchildren : ∀ j, ((g.born (spine page i) (spine page (i + 1))).notify (spine page i)
        (.childAttached (spine page (i + 1)))).children (spine page j) =
          if j = i + 1 then [] else if j = i then g.children (spine page j) ++ [spine page (i + 1)]
            else g.children (spine page j) := by
      intro j
      rw [children_congr (scope?_notify _ _ _ _), children_born g hne (h.isLive hi)]
      simp only [hinj.eq_iff]
    rw [Nat.max_eq_right (by omega)]
    refine of_linked hinj hlinked ?_ ?_ ?_
    · intro id
      rw [isLive_eq, scope?_notify, scope?_born g _ _ id hne]
      by_cases hid : id = spine page (i + 1)
      · rw [if_pos hid]
        exact iff_of_true rfl ⟨i + 1, by omega, hid⟩
      · have hkept : (if id = spine page i then (g.scope? id).map fun s =>
            { s with children := s.children ++ [spine page (i + 1)] } else g.scope? id).isSome =
              g.isLive id := by
          split
          · rw [Option.isSome_map, isLive_eq]
          · rfl
        rw [if_neg hid, hkept, h.live]
        constructor
        · rintro ⟨j, hj, rfl⟩
          exact ⟨j, by omega, rfl⟩
        · rintro ⟨j, hj, rfl⟩
          have hji : j ≠ i + 1 := fun heq => hid (heq ▸ rfl)
          exact ⟨j, by omega, rfl⟩
    · intro j hj
      rw [hchildren, if_neg (by omega)]
      split
      · next hji =>
        subst hji
        rw [h.last j (Nat.le_refl _), List.nil_append]
      · exact h.child j (by omega)
    · intro j hj
      rw [hchildren, if_pos (by omega)]

/-! ### Cuts -/

theorem exists_of_below (hdown : ∀ i, ∀ b ∈ g.children (spine page i), b = spine page (i + 1))
    (h : g.Below (spine page k) n) : ∃ j, k ≤ j ∧ n = spine page j := by
  induction h with
  | refl => exact ⟨k, Nat.le_refl k, rfl⟩
  | tail _ hb ih =>
    obtain ⟨j, hj, rfl⟩ := ih
    exact ⟨j + 1, by omega, hdown j _ hb⟩

theorem below_of_le (hdown : ∀ i, k ≤ i → i < j → spine page (i + 1) ∈ g.children (spine page i))
    (hkj : k ≤ j) : g.Below (spine page k) (spine page j) := by
  induction hkj with
  | refl => exact ReflTransGen.refl
  | @step j hkj ih =>
    exact (ih fun i hi hij => hdown i hi (by omega)).tail (hdown j hkj (Nat.lt_succ_self j))

theorem below_iff (h : g.Spine page m) (hinj : Function.Injective (spine page)) (hj : j < m) :
    g.Below (spine page k) (spine page j) ↔ k ≤ j := by
  constructor
  · intro hbelow
    obtain ⟨l, hl, heq⟩ := exists_of_below (fun i b hb => (h.mem_children hb).2) hbelow
    rwa [hinj heq]
  · intro hkj
    refine below_of_le (fun i _ hij => ?_) hkj
    rw [h.child i (by omega)]
    exact List.mem_singleton.2 rfl

theorem scope?_cut (h : g.Spine page m) (hinj : Function.Injective (spine page)) (hk : k < m)
    (hj : j < m) : (g.dispose (spine page k)).scope? (spine page j) =
      if k ≤ j then none
      else if j + 1 = k then (g.scope? (spine page j)).map fun s =>
        { s with children := s.children.filter (· != spine page k) }
      else g.scope? (spine page j) := by
  by_cases hkj : k ≤ j
  · rw [if_pos hkj]
    exact h.linked.scope?_dispose_of_below ((h.below_iff hinj hj).2 hkj)
  · rw [if_neg hkj, h.linked.scope?_dispose_of_not_below (mt (h.below_iff hinj hj).1 hkj)]
    obtain ⟨k, rfl⟩ := Nat.exists_eq_add_one_of_ne_zero (n := k) (by omega)
    simp only [h.parent k hk, Option.some.injEq, hinj.eq_iff, Nat.add_right_cancel_iff, eq_comm]

/-- A scope that is removed takes all below it along. -/
theorem cut (h : g.Spine page m) (hinj : Function.Injective (spine page)) (hk : 0 < k) :
    (g.dispose (spine page k)).Spine page (min m k) := by
  rcases Nat.lt_or_ge k m with hin | hend
  · have hchildren : ∀ j, j < k → (g.dispose (spine page k)).children (spine page j) =
        (g.children (spine page j)).filter (· != spine page k) := by
      intro j hj
      have hfilter : j + 1 ≠ k → (g.children (spine page j)).filter (· != spine page k) =
          g.children (spine page j) := by
        intro hne
        refine List.filter_eq_self.2 fun n hn => ?_
        rw [(h.mem_children hn).2]
        simpa using fun heq => hne (hinj heq)
      unfold children at hfilter ⊢
      rw [h.scope?_cut hinj hin (by omega), if_neg (by omega)]
      split
      · cases g.scope? (spine page j) with
        | none => rfl
        | some s => rfl
      · next hne => rw [hfilter hne]
    rw [Nat.min_eq_right (Nat.le_of_lt hin)]
    refine of_linked hinj (h.linked.dispose _) ?_ ?_ ?_
    · intro id
      rw [h.linked.isLive_dispose, h.live]
      constructor
      · rintro ⟨⟨j, hj, rfl⟩, hbelow⟩
        rw [h.below_iff hinj hj] at hbelow
        exact ⟨j, by omega, rfl⟩
      · rintro ⟨j, hj, rfl⟩
        rw [h.below_iff hinj (by omega)]
        exact ⟨⟨j, by omega, rfl⟩, by omega⟩
    · intro j hj
      rw [hchildren j (by omega), h.child j (by omega)]
      have hne : spine page (j + 1) ≠ spine page k := fun heq => by
        have := hinj heq
        omega
      simpa using hne
    · rintro j rfl
      rw [hchildren j (Nat.lt_succ_self j), h.child j hin]
      simp
  · rw [Nat.min_eq_left hend]
    rwa [dispose_of_none (h.scope?_eq_none hinj hend)]

theorem scope?_trim (h : g.Spine page m) (hinj : Function.Injective (spine page)) (hk : k < m)
    (hj : j < m) : (g.disposeDescendants (spine page k)).scope? (spine page j) =
      if j ≤ k then (g.modify (spine page k) fun s => { s with children := [] }).scope? (spine page j)
      else none := by
  obtain ⟨s, hs⟩ := Option.isSome_iff_exists.1 (h.isLive hk)
  have hchildren : ∀ i, (g.modify (spine page k) fun s => { s with children := [] }).children
      (spine page i) = if i = k then [] else g.children (spine page i) := by
    intro i
    unfold children
    rw [scope?_modify]
    by_cases hi : i = k
    · rw [if_pos hi, hi, if_pos rfl]
      cases g.scope? (spine page k) with
      | none => rfl
      | some s => rfl
    · rw [if_neg hi, if_neg fun heq => hi (hinj heq)]
  have hs' : ∀ n, n ∈ s.children ↔ n ∈ g.children (spine page k) :=
    fun n => (ScopeGraph.mem_children hs).symm
  rw [scope?_disposeDescendants hs]
  split
  · next hjk =>
    refine scope?_remove_of_not_below fun c hc hbelow => ?_
    obtain ⟨-, rfl⟩ := h.mem_children ((hs' c).1 hc)
    obtain ⟨l, hl, heq⟩ := exists_of_below (fun i b hb => by
      rw [hchildren] at hb
      split at hb
      · contradiction
      · exact (h.mem_children hb).2) hbelow
    have := hinj heq
    omega
  · next hjk =>
    refine scope?_remove_of_below (i := spine page (k + 1)) ?_ (below_of_le (fun i hi hij => ?_) (by omega))
    · rw [hs', h.child k (by omega)]
      exact List.mem_singleton.2 rfl
    · rw [hchildren, if_neg (by omega), h.child i (by omega)]
      exact List.mem_singleton.2 rfl

/-- A scope that loses all below it is the last one. -/
theorem trim (h : g.Spine page m) (hinj : Function.Injective (spine page)) (hk : k < m) :
    (g.disposeDescendants (spine page k)).Spine page (k + 1) := by
  refine of_linked hinj (h.linked.disposeDescendants _) ?_ ?_ ?_
  · intro id
    constructor
    · intro hlive
      obtain ⟨j, hj, rfl⟩ := (h.live id).1 (isLive_of_disposeDescendants hlive)
      refine ⟨j, ?_, rfl⟩
      by_contra hjk
      rw [isLive_eq, h.scope?_trim hinj hk hj, if_neg (by omega)] at hlive
      contradiction
    · rintro ⟨j, hj, rfl⟩
      rw [isLive_eq, h.scope?_trim hinj hk (by omega), if_pos (by omega), scope?_modify]
      have hin := h.isLive (i := j) (by omega)
      rw [isLive_eq] at hin
      split
      · rwa [Option.isSome_map]
      · exact hin
  · intro j hj
    have hsame : (g.disposeDescendants (spine page k)).scope? (spine page j) = g.scope? (spine page j) := by
      rw [h.scope?_trim hinj hk (by omega), if_pos (by omega), scope?_modify_of_ne]
      exact fun heq => by
        have := hinj heq
        omega
    rw [children_congr hsame, h.child j (by omega)]
  · intro j hj
    obtain rfl : j = k := by omega
    unfold children
    rw [h.scope?_trim hinj hk hk, if_pos (Nat.le_refl j), scope?_modify_self]
    cases g.scope? (spine page j) with
    | none => rfl
    | some s => rfl

/-! ### Sight -/

theorem any_upwards (h : g.Spine page m) (p : Scope V → Bool) {count : Nat} (hj : j < m)
    (hcount : j < count) : (g.upwards count (spine page j)).any p = true ↔
      ∃ i ≤ j, ∃ s, g.scope? (spine page i) = some s ∧ p s = true := by
  induction j generalizing count with
  | zero =>
    obtain ⟨count, rfl⟩ := Nat.exists_eq_add_one_of_ne_zero (Nat.ne_of_gt hcount)
    obtain ⟨s, hs⟩ := Option.isSome_iff_exists.1 (h.isLive hj)
    have hs' : g.scope? (spine page 0) = some s := hs
    have hup : s.parent = none := (parent?_eq_of_scope? hs').symm.trans h.top
    unfold upwards
    simp [hs', hup]
  | succ j ih =>
    obtain ⟨count, rfl⟩ := Nat.exists_eq_add_one_of_ne_zero (Nat.ne_of_gt (Nat.zero_lt_of_lt hcount))
    obtain ⟨s, hs⟩ := Option.isSome_iff_exists.1 (h.isLive hj)
    have hs' : g.scope? (spine page (j + 1)) = some s := hs
    have hup : s.parent = some (spine page j) := (parent?_eq_of_scope? hs').symm.trans (h.parent j hj)
    have hrest := ih (Nat.lt_of_succ_lt hj) (Nat.lt_of_succ_lt_succ hcount)
    unfold upwards
    simp only [hs', hup, Option.map_some, Option.getD_some, List.any_cons, Bool.or_eq_true, hrest]
    constructor
    · rintro (hp | ⟨i, hi, hfound⟩)
      · exact ⟨j + 1, Nat.le_refl _, s, hs', hp⟩
      · exact ⟨i, by omega, hfound⟩
    · rintro ⟨i, hi, t, ht, hp⟩
      rcases Nat.lt_or_eq_of_le hi with hlt | rfl
      · exact Or.inr ⟨i, by omega, t, ht, hp⟩
      · rw [hs', Option.some.injEq] at ht
        exact Or.inl (ht ▸ hp)

theorem le_size (h : g.Spine page m) (hinj : Function.Injective (spine page)) : m ≤ g.size := by
  have hnodup : ((List.range m).map (spine page)).Nodup := List.nodup_range.map hinj
  have hsub : (List.range m).map (spine page) ⊆ g.scopes.map Prod.fst := by
    intro id hid
    obtain ⟨i, hi, rfl⟩ := List.mem_map.1 hid
    exact mem_scopes_of_isLive (h.isLive (List.mem_range.1 hi))
  have hlength := hnodup.length_le_of_subset hsub
  rwa [List.length_map, List.length_map, List.length_range] at hlength

/-- A name is seen from a scope if that one or one above it binds it. -/
theorem has_iff (h : g.Spine page m) (hinj : Function.Injective (spine page)) (hj : j < m) :
    g.has (spine page j) name = true ↔ ∃ i ≤ j, (g.bindings (spine page i)).has name = true := by
  unfold has path
  rw [h.any_upwards _ hj (Nat.lt_of_lt_of_le hj (h.le_size hinj))]
  refine exists_congr fun i => and_congr_right fun hi => ?_
  obtain ⟨s, hs⟩ := Option.isSome_iff_exists.1 (h.isLive (i := i) (by omega))
  have hs' : g.scope? (spine page i) = some s := hs
  unfold bindings
  simp [hs']

end Spine

end ScopeGraph

end LiveNotes
