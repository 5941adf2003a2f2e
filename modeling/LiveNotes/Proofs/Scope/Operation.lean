import LiveNotes.Proofs.Scope.Change

/-! All that can be done to a scope graph, and the graphs that come of it. In each of them a scope that
has a parent is listed there as a child; so the parent is live. -/

namespace LiveNotes

namespace ScopeGraph

variable {V : Type} {g : ScopeGraph V} {id p : String}

inductive Operation (V : Type) where
  | child (parent id : String)
  | setMany (id : String) (bindings : List (String × V))
  | reset (id : String)
  | block (id : String)
  | unblock (id : String)
  | dispose (id : String)
  | disposeDescendants (id : String)
  | listen (id : String) (name : Option String)
  | unlisten (id : String) (number : Nat)
  deriving DecidableEq, Repr, Inhabited

def Operation.apply : Operation V → ScopeGraph V → ScopeGraph V
  | .child parent id, g => g.child parent id
  | .setMany id bindings, g => g.setMany id bindings
  | .reset id, g => g.reset id
  | .block id, g => g.block id
  | .unblock id, g => g.unblock id
  | .dispose id, g => g.dispose id
  | .disposeDescendants id, g => g.disposeDescendants id
  | .listen id name, g => (g.listen id name).2
  | .unlisten id number, g => g.unlisten id number

/-- The id of the handle that an operation goes through. -/
def Operation.handle : Operation V → String
  | .child parent _ => parent
  | .setMany id _ => id
  | .reset id => id
  | .block id => id
  | .unblock id => id
  | .dispose id => id
  | .disposeDescendants id => id
  | .listen id _ => id
  | .unlisten id _ => id

/-- An operation that neither makes nor moves nor removes scopes. -/
def Operation.KeepsLinks : Operation V → Prop
  | .child _ _ => False
  | .dispose _ => False
  | .disposeDescendants _ => False
  | _ => True

/-- A graph that operations make of the new one. -/
inductive Reachable : ScopeGraph V → Prop
  | new : Reachable new
  | apply {g : ScopeGraph V} (op : Operation V) : Reachable g → Reachable (op.apply g)

def Operation.run (ops : List (Operation V)) (g : ScopeGraph V) : ScopeGraph V :=
  ops.foldl (fun g op => op.apply g) g

theorem Reachable.run (h : g.Reachable) (ops : List (Operation V)) : (Operation.run ops g).Reachable := by
  induction ops generalizing g with
  | nil => exact h
  | cons op ops ih => exact ih (h.apply op)

/-- A part of a scope, and something else where there is none. -/
def part {β : Type} (g : ScopeGraph V) (π : Scope V → β) (b : β) (id : String) : β :=
  ((g.scope? id).map π).getD b

/-- A part that is no link. -/
def Unlinked {β : Type} (π : Scope V → β) : Prop :=
  ∀ s parent children, π { s with parent := parent, children := children } = π s

/-- Every scope is listed by its parent. -/
def Listed (g : ScopeGraph V) : Prop := ∀ id p, g.parent? id = some p → id ∈ g.children p

/-! ### Parents and children -/

theorem parent?_congr {g' : ScopeGraph V} {n : String} (h : g'.scope? n = g.scope? n) :
    g'.parent? n = g.parent? n := by
  unfold parent?
  rw [h]

theorem parent?_eq_of_scope? {s : Scope V} (h : g.scope? id = some s) : g.parent? id = s.parent :=
  congrArg (·.bind (·.parent)) h

theorem children_congr {g' : ScopeGraph V} {n : String} (h : g'.scope? n = g.scope? n) :
    g'.children n = g.children n := by
  unfold children
  rw [h]

theorem parent?_modify {f : Scope V → Scope V} (hf : ∀ s, (f s).parent = s.parent) (n : String) :
    (g.modify id f).parent? n = g.parent? n := by
  have hmap : ((g.modify id f).scope? n).map (·.parent) = (g.scope? n).map (·.parent) :=
    map_scope?_modify hf n
  have hbind := congrArg (·.bind fun p => p) hmap
  simp only [Option.bind_map] at hbind
  exact hbind

theorem children_modify {f : Scope V → Scope V} (hf : ∀ s, (f s).children = s.children) (n : String) :
    (g.modify id f).children n = g.children n :=
  congrArg (·.getD []) (map_scope?_modify hf n)

/-- An operation that keeps links changes nothing of a scope but what it binds, whether it is blocked, and who
listens. -/
theorem map_scope?_apply {β : Type} {π : Scope V → β} {op : Operation V} (hop : op.KeepsLinks)
    (hπ : ∀ s bindings blocked listeners,
      π { s with bindings := bindings, blocked := blocked, listeners := listeners } = π s) (n : String) :
    ((op.apply g).scope? n).map π = (g.scope? n).map π := by
  have hchange : ∀ (id : String) (f : Scope V → Scope V), (∀ s, π (f s) = π s) →
      (if n = id then (g.scope? n).map f else g.scope? n).map π = (g.scope? n).map π := by
    intro id f hf
    split
    · rw [Option.map_map]
      exact congrArg (fun h => (g.scope? n).map h) (funext hf)
    · rfl
  cases op with
  | child p c => contradiction
  | setMany id more => exact (congrArg _ (scope?_setMany g id more n)).trans (hchange id _ fun s => hπ s _ _ _)
  | reset id => exact (congrArg _ (scope?_reset g id n)).trans (hchange id _ fun s => hπ s _ _ _)
  | block id => exact (congrArg _ (scope?_block g id n)).trans (hchange id _ fun s => hπ s _ _ _)
  | unblock id => exact (congrArg _ (scope?_unblock g id n)).trans (hchange id _ fun s => hπ s _ _ _)
  | dispose id => contradiction
  | disposeDescendants id => contradiction
  | listen id name => exact (congrArg _ (scope?_listen g id name n)).trans (hchange id _ fun s => hπ s _ _ _)
  | unlisten id number =>
    exact (congrArg _ (scope?_unlisten g id number n)).trans (hchange id _ fun s => hπ s _ _ _)

theorem isLive_apply {op : Operation V} (hop : op.KeepsLinks) (n : String) :
    (op.apply g).isLive n = g.isLive n := by
  have hmap := map_scope?_apply (g := g) (π := fun _ => ()) hop (fun _ _ _ _ => rfl) n
  have hsome := congrArg Option.isSome hmap
  rwa [Option.isSome_map, Option.isSome_map] at hsome

theorem parent?_apply {op : Operation V} (hop : op.KeepsLinks) (n : String) :
    (op.apply g).parent? n = g.parent? n := by
  have hmap := map_scope?_apply (g := g) (π := (·.parent)) hop (fun _ _ _ _ => rfl) n
  have hbind := congrArg (·.bind fun p => p) hmap
  simp only [Option.bind_map] at hbind
  exact hbind

theorem children_apply {op : Operation V} (hop : op.KeepsLinks) (n : String) :
    (op.apply g).children n = g.children n := by
  have hmap := map_scope?_apply (g := g) (π := (·.children)) hop (fun _ _ _ _ => rfl) n
  exact congrArg (·.getD []) hmap

theorem children_addChild (g : ScopeGraph V) (p id n : String) :
    (g.addChild p id).children n = if n = p ∧ g.isLive p then g.children n ++ [id] else g.children n := by
  unfold children
  rw [scope?_addChild, isLive_eq]
  by_cases h : n = p
  · subst h
    cases hs : g.scope? n with
    | none => simp
    | some s => simp
  · simp [h]

theorem children_dropChild (g : ScopeGraph V) (p id n : String) :
    (g.dropChild p id).children n = if n = p then (g.children n).filter (· != id) else g.children n := by
  unfold children
  rw [scope?_dropChild]
  by_cases h : n = p
  · subst h
    cases hs : g.scope? n with
    | none => simp
    | some s => simp
  · simp [h]

theorem parent?_addChild (g : ScopeGraph V) (p id n : String) :
    (g.addChild p id).parent? n = g.parent? n := by
  refine parent?_modify ?_ n
  exact fun _ => rfl

theorem parent?_dropChild (g : ScopeGraph V) (p id n : String) :
    (g.dropChild p id).parent? n = g.parent? n := by
  refine parent?_modify ?_ n
  exact fun _ => rfl

/-! ### The new scope -/

/-- The graph with a new scope that its parent lists. -/
def born (g : ScopeGraph V) (parent id : String) : ScopeGraph V :=
  ({ g with
      scopes := g.scopes.insert id { parent := some parent, birth := g.births }
      births := g.births + 1 } : ScopeGraph V).addChild parent id

theorem child_of_dead (hne : id ≠ p) (hp : g.isLive p) (hid : g.scope? id = none) :
    g.child p id = (g.born p id).notify p (.childAttached id) := by
  unfold child
  rw [if_neg (by simp [hne, hp]), hid]
  rfl

theorem scope?_born (g : ScopeGraph V) (p id n : String) (hne : id ≠ p) :
    (g.born p id).scope? n =
      if n = id then some { parent := some p, birth := g.births }
      else if n = p then (g.scope? n).map fun s => { s with children := s.children ++ [id] }
      else g.scope? n := by
  have hinsert : ({ g with
      scopes := g.scopes.insert id { parent := some p, birth := g.births }
      births := g.births + 1 } : ScopeGraph V).scope? n =
      if n = id then some { parent := some p, birth := g.births } else g.scope? n :=
    Table.get?_insert id n _ g.scopes
  unfold born
  rw [scope?_addChild, hinsert]
  by_cases hn : n = id
  · subst hn
    rw [if_neg hne, if_pos rfl, if_pos rfl]
  · rw [if_neg hn, if_neg hn]

theorem scope?_child_of_dead (hne : id ≠ p) (hp : g.isLive p) (hid : g.scope? id = none) :
    (g.child p id).scope? id = some { parent := some p, birth := g.births } := by
  rw [child_of_dead hne hp hid, scope?_notify, scope?_born g p id id hne, if_pos rfl]

theorem parent?_born (g : ScopeGraph V) (p id n : String) (hne : id ≠ p) :
    (g.born p id).parent? n = if n = id then some p else g.parent? n := by
  unfold parent?
  rw [scope?_born g p id n hne]
  by_cases hn : n = id
  · simp [hn]
  · rw [if_neg hn, if_neg hn]
    split
    · rw [Option.bind_map]
      rfl
    · rfl

/-! ### Listed scopes -/

theorem Listed.isLive_parent (h : g.Listed) (hp : g.parent? id = some p) : g.isLive p = true := by
  have hmem := h id p hp
  unfold children at hmem
  rw [isLive_eq]
  cases hs : g.scope? p with
  | none => simp [hs] at hmem
  | some s => rfl

theorem Listed.congr {g' : ScopeGraph V} (h : g.Listed) (hp : ∀ n, g'.parent? n = g.parent? n)
    (hc : ∀ n, g'.children n = g.children n) : g'.Listed := by
  intro n q hq
  rw [hp] at hq
  rw [hc]
  exact h n q hq

theorem listed_remove {ids : List String}
    (h : ∀ n q, g.parent? n = some q → n ∈ ids ∨ n ∈ g.children q) : (g.remove ids).Listed := by
  intro n q hq
  obtain ⟨s, hs, hsq⟩ := Option.bind_eq_some_iff.1 hq
  have hpar : g.parent? n = some q := Option.bind_eq_some_iff.2 ⟨s, scope?_of_remove hs, hsq⟩
  have hleft : (g.remove ids).scope? n ≠ none := by
    rw [hs]
    exact Option.some_ne_none s
  rcases h n q hpar with hids | hmem
  · exact absurd (scope?_remove_of_mem hids) hleft
  · cases hqs : g.scope? q with
    | none => simp [children, hqs] at hmem
    | some t =>
      have hchild : n ∈ t.children := by simpa [children, hqs] using hmem
      -- Had the parent been removed, the scope would be gone with it.
      cases hq' : (g.remove ids).scope? q with
      | none => exact absurd (scope?_remove_of_child hqs hq' hchild) hleft
      | some t' =>
        have ht := scope?_of_remove hq'
        rw [hqs, Option.some.injEq] at ht
        subst ht
        simpa [children, hq'] using hchild

theorem parent?_new (id : String) : (new : ScopeGraph V).parent? id = none := by
  unfold parent? scope? new
  rw [Table.get?_cons]
  split
  · rfl
  · rfl

theorem listed_new : (new : ScopeGraph V).Listed := by
  intro n q hq
  unfold parent? scope? new at hq
  rw [Table.get?_cons] at hq
  split at hq
  · contradiction
  · contradiction

theorem parent?_move (g : ScopeGraph V) (old : Option String) (p id n : String) (hid : g.isLive id) :
    (g.move old p id).parent? n = if n = id then some p else g.parent? n := by
  -- The old parent may have dropped the scope before, which leaves parents as they are.
  have hset : ∀ g' : ScopeGraph V, (∀ n, g'.parent? n = g.parent? n) → g'.isLive id = true →
      (((g'.modify id fun s => { s with parent := some p }).addChild p id).parent? n =
        if n = id then some p else g.parent? n) := by
    intro g' hg' hlive
    rw [parent?_addChild, ← hg']
    unfold parent?
    rw [scope?_modify]
    split
    · next hn =>
      obtain ⟨s, hs⟩ := Option.isSome_iff_exists.1 hlive
      have hs' : g'.scope? n = some s := hn ▸ hs
      rw [hs']
      rfl
    · rfl
  cases old with
  | none => exact hset g (fun _ => rfl) hid
  | some o =>
    refine hset (g.dropChild o id) (parent?_dropChild g o id) ?_
    exact (isLive_modify g o _ id).trans hid

theorem children_move (g : ScopeGraph V) (old : Option String) (hp : g.isLive p) (q : String) :
    (g.move old p id).children q =
      (if old = some q then (g.children q).filter (· != id) else g.children q) ++
        if q = p then [id] else [] := by
  have hset : ∀ g' : ScopeGraph V, g'.isLive p = true →
      ((g'.modify id fun s => { s with parent := some p }).addChild p id).children q =
        g'.children q ++ if q = p then [id] else [] := by
    intro g' hlive
    have hlive' : (g'.modify id fun s => { s with parent := some p }).isLive p = true :=
      (isLive_modify g' id _ p).trans hlive
    have hkept : (g'.modify id fun s => { s with parent := some p }).children q = g'.children q := by
      refine children_modify ?_ q
      exact fun _ => rfl
    rw [children_addChild, hkept]
    by_cases hq : q = p
    · rw [if_pos ⟨hq, hlive'⟩, if_pos hq]
    · rw [if_neg fun hand => hq hand.1, if_neg hq, List.append_nil]
  cases old with
  | none => exact hset g hp
  | some o =>
    refine (hset (g.dropChild o id) ?_).trans ?_
    · exact (isLive_modify g o _ p).trans hp
    · rw [children_dropChild]
      by_cases hq : q = o
      · rw [if_pos hq, if_pos (congrArg some hq.symm)]
      · rw [if_neg hq, if_neg fun heq => hq (Option.some.inj heq).symm]

theorem isLive_move (g : ScopeGraph V) (old : Option String) (p id n : String) :
    (g.move old p id).isLive n = g.isLive n := by
  have hset : ∀ g' : ScopeGraph V, ((g'.modify id fun s => { s with parent := some p }).addChild p
      id).isLive n = g'.isLive n :=
    fun g' => (isLive_modify _ p _ n).trans (isLive_modify g' id _ n)
  cases old with
  | none => exact hset g
  | some o => exact (hset (g.dropChild o id)).trans (isLive_modify g o _ n)

theorem mem_children_move {old : Option String} {n q : String} (hp : g.isLive p)
    (h : n = id ∧ q = p ∨ n ≠ id ∧ n ∈ g.children q) : n ∈ (g.move old p id).children q := by
  rw [children_move g old hp]
  rcases h with ⟨rfl, rfl⟩ | ⟨hne, hmem⟩
  · rw [if_pos rfl]
    exact List.mem_append_right _ (List.mem_singleton.2 rfl)
  · refine List.mem_append_left _ ?_
    split
    · exact List.mem_filter.2 ⟨hmem, by simpa using hne⟩
    · exact hmem

theorem child_of_live {s : Scope V} (hne : id ≠ p) (hp : g.isLive p) (hid : g.scope? id = some s)
    (hs : s.parent ≠ some p) :
    g.child p id = (g.move s.parent p id).notify p (.childAttached id) := by
  unfold child
  rw [if_neg (by simp [hne, hp]), hid]
  exact if_neg (by simpa using hs)

theorem child_of_child {s : Scope V} (hid : g.scope? id = some s) (hs : s.parent = some p) :
    g.child p id = g := by
  unfold child
  split
  · rfl
  · rw [hid]
    exact if_pos (by simpa using hs)

theorem child_of_nothing (h : id = p ∨ g.isLive p = false) : g.child p id = g := by
  unfold child
  exact if_pos (by simpa using h)

/-- A scope is made, or moved, or nothing happens. -/
theorem child_cases (g : ScopeGraph V) (p id : String) :
    (id = p ∨ g.isLive p = false ∨ g.parent? id = some p) ∧ g.child p id = g ∨
      (id ≠ p ∧ g.isLive p = true ∧ g.scope? id = none) ∧
        g.child p id = (g.born p id).notify p (.childAttached id) ∨
      (id ≠ p ∧ g.isLive p = true ∧ g.isLive id = true ∧ g.parent? id ≠ some p) ∧
        g.child p id = (g.move (g.parent? id) p id).notify p (.childAttached id) := by
  by_cases hnothing : id = p ∨ g.isLive p = false
  · exact Or.inl ⟨or_assoc.1 (Or.inl hnothing), child_of_nothing hnothing⟩
  · obtain ⟨hne, hdead⟩ := not_or.1 hnothing
    have hp : g.isLive p = true := by simpa using hdead
    cases hid : g.scope? id with
    | none => exact Or.inr (Or.inl ⟨⟨hne, hp, rfl⟩, child_of_dead hne hp hid⟩)
    | some s =>
      have hup : g.parent? id = s.parent := parent?_eq_of_scope? hid
      rw [hup]
      by_cases hs : s.parent = some p
      · exact Or.inl ⟨Or.inr (Or.inr hs), child_of_child hid hs⟩
      · have hlive : g.isLive id = true := by
          rw [isLive_eq, hid]
          rfl
        exact Or.inr (Or.inr ⟨⟨hne, hp, hlive, hs⟩, child_of_live hne hp hid hs⟩)

/-! ### Parts of scopes -/

section

variable {β : Type} {π : Scope V → β} {b : β} {n : String}

theorem part_congr {g' : ScopeGraph V} (h : g'.scope? n = g.scope? n) : g'.part π b n = g.part π b n := by
  unfold part
  rw [h]

theorem part_modify {f : Scope V → Scope V} (hf : ∀ s, π (f s) = π s) (n : String) :
    (g.modify id f).part π b n = g.part π b n := congrArg (·.getD b) (map_scope?_modify hf n)

theorem part_move (hπ : Unlinked π) (old : Option String) (p id n : String) :
    (g.move old p id).part π b n = g.part π b n := by
  have hset : ∀ g' : ScopeGraph V, ((g'.modify id fun s => { s with parent := some p }).addChild p
      id).part π b n = g'.part π b n := by
    intro g'
    refine (part_modify ?_ n).trans (part_modify ?_ n)
    · exact fun s => hπ s _ _
    · exact fun s => hπ s _ _
  cases old with
  | none => exact hset g
  | some o =>
    refine (hset (g.dropChild o id)).trans (part_modify ?_ n)
    exact fun s => hπ s _ _

/-- A new scope has what there was without it; all others keep what they have. -/
theorem part_child (hπ : Unlinked π) (hnew : ∀ parent birth, π { parent := parent, birth := birth } = b)
    (p id n : String) : (g.child p id).part π b n = g.part π b n := by
  rcases g.child_cases p id with ⟨-, heq⟩ | ⟨⟨hne, -, hid⟩, heq⟩ | ⟨-, heq⟩
  · rw [heq]
  · have hborn : (g.born p id).part π b n = g.part π b n := by
      unfold part
      rw [scope?_born g p id n hne]
      split
      · next hn =>
        rw [hn, hid]
        exact hnew (some p) g.births
      · split
        · rw [Option.map_map]
          exact congrArg (fun h => ((g.scope? n).map h).getD b) (funext fun s => hπ s _ _)
        · rfl
    rw [heq]
    exact hborn
  · rw [heq]
    exact part_move hπ (g.parent? id) p id n

theorem part_dispose (hπ : Unlinked π) (h : (g.dispose id).isLive n = true) :
    (g.dispose id).part π b n = g.part π b n := by
  cases hid : g.scope? id with
  | none => rw [dispose_of_none hid]
  | some s =>
    have hsame := scope?_dispose hid n
    rw [isLive_eq, hsame] at h
    rw [part_congr hsame, part_congr (scope?_remove_of_isLive h)]
    cases s.parent with
    | none => rfl
    | some p =>
      have hdropped : (g.dropChild p id).part π b n = g.part π b n := by
        refine part_modify ?_ n
        exact fun s => hπ s _ _
      exact hdropped

theorem part_disposeDescendants (hπ : Unlinked π) (h : (g.disposeDescendants id).isLive n = true) :
    (g.disposeDescendants id).part π b n = g.part π b n := by
  cases hid : g.scope? id with
  | none => rw [disposeDescendants_of_none hid]
  | some s =>
    have hsame := scope?_disposeDescendants hid n
    rw [isLive_eq, hsame] at h
    rw [part_congr hsame, part_congr (scope?_remove_of_isLive h)]
    refine part_modify ?_ n
    exact fun s => hπ s _ _

end

/-! ### Parents of scopes -/

/-- A scope made or moved below another one gets that one for its parent; all others keep theirs. -/
theorem parent?_child (g : ScopeGraph V) (p id n : String) : (g.child p id).parent? n =
    if n = id ∧ id ≠ p ∧ g.isLive p = true then some p else g.parent? n := by
  rcases g.child_cases p id with ⟨hnothing, heq⟩ | ⟨⟨hne, hp, -⟩, heq⟩ | ⟨⟨hne, hp, hid, -⟩, heq⟩
  · rw [heq]
    split
    · next hand =>
      obtain ⟨rfl, hne, hp⟩ := hand
      rcases hnothing with hsame | hdead | hup
      · contradiction
      · rw [hp] at hdead
        contradiction
      · exact hup
    · rfl
  · rw [heq]
    exact (parent?_born g p id n hne).trans (by simp [hne, hp])
  · rw [heq]
    exact (parent?_move g (g.parent? id) p id n hid).trans (by simp [hne, hp])

theorem parent?_of_child {n q : String} (h : (g.child p id).parent? n = some q) :
    g.parent? n = some q ∨ n = id ∧ q = p ∧ id ≠ p := by
  rw [parent?_child] at h
  split at h
  · next hand => exact Or.inr ⟨hand.1, (Option.some.inj h).symm, hand.2.1⟩
  · exact Or.inl h

theorem parent?_of_remove {ids : List String} {n q : String} (h : (g.remove ids).parent? n = some q) :
    g.parent? n = some q := by
  obtain ⟨s, hs, hq⟩ := Option.bind_eq_some_iff.1 h
  exact Option.bind_eq_some_iff.2 ⟨s, scope?_of_remove hs, hq⟩

theorem parent?_of_dispose {n q : String} (h : (g.dispose id).parent? n = some q) :
    g.parent? n = some q := by
  cases hid : g.scope? id with
  | none => rwa [dispose_of_none hid] at h
  | some s =>
    rw [parent?_congr (scope?_dispose hid n)] at h
    have hbefore := parent?_of_remove h
    cases hp : s.parent with
    | none =>
      rw [hp] at hbefore
      exact hbefore
    | some p =>
      rw [hp] at hbefore
      exact (parent?_dropChild g p id n).symm.trans hbefore

theorem parent?_of_modify {f : Scope V → Scope V} {n q : String} (h : (g.modify id f).parent? n = some q)
    (hf : ∀ s, (f s).parent = s.parent) : g.parent? n = some q := by
  rwa [parent?_modify hf] at h

theorem parent?_of_disposeDescendants {n q : String} (h : (g.disposeDescendants id).parent? n = some q) :
    g.parent? n = some q := by
  cases hid : g.scope? id with
  | none => rwa [disposeDescendants_of_none hid] at h
  | some s =>
    rw [parent?_congr (scope?_disposeDescendants hid n)] at h
    exact parent?_of_modify (parent?_of_remove h) fun _ => rfl

/-- No operation gives a scope a parent but `child`, and that one never the scope itself. -/
theorem parent?_of_apply {n q : String} (op : Operation V) (h : (op.apply g).parent? n = some q) :
    g.parent? n = some q ∨ op = .child q n ∧ n ≠ q := by
  cases op with
  | child parent id =>
    rcases parent?_of_child h with hold | ⟨rfl, rfl, hne⟩
    · exact Or.inl hold
    · exact Or.inr ⟨rfl, hne⟩
  | dispose id => exact Or.inl (parent?_of_dispose h)
  | disposeDescendants id => exact Or.inl (parent?_of_disposeDescendants h)
  | _ => exact Or.inl ((parent?_apply (by exact trivial) n).symm.trans h)

theorem Listed.born (h : g.Listed) (hne : id ≠ p) (hp : g.isLive p) (hid : g.scope? id = none) :
    (g.born p id).Listed := by
  intro n q hq
  rw [parent?_born g p id n hne] at hq
  unfold children
  rw [scope?_born g p id q hne]
  split at hq
  · next hn =>
    obtain ⟨s, hs⟩ := Option.isSome_iff_exists.1 hp
    rw [Option.some.injEq] at hq
    subst hq hn
    have hs' : g.scope? p = some s := hs
    simp [hs', Ne.symm hne]
  · -- The new scope was no parent before, since parents are live.
    have hmem := h n q hq
    have hqid : q ≠ id := by
      rintro rfl
      simp [children, hid] at hmem
    rw [if_neg hqid]
    split
    · cases hs : g.scope? q with
      | none => simp [children, hs] at hmem
      | some s =>
        unfold children at hmem
        rw [hs] at hmem
        exact List.mem_append_left _ hmem
    · exact hmem

theorem Listed.move (h : g.Listed) (hp : g.isLive p) (hid : g.isLive id) (old : Option String) :
    (g.move old p id).Listed := by
  intro n q hq
  rw [parent?_move g old p id n hid] at hq
  refine mem_children_move hp ?_
  split at hq
  · next hn =>
    rw [Option.some.injEq] at hq
    exact Or.inl ⟨hn, hq.symm⟩
  · next hn => exact Or.inr ⟨hn, h n q hq⟩

theorem Listed.child (h : g.Listed) (p id : String) : (g.child p id).Listed := by
  rcases g.child_cases p id with ⟨-, heq⟩ | ⟨⟨hne, hp, hid⟩, heq⟩ | ⟨⟨-, hp, hid, -⟩, heq⟩
  · rwa [heq]
  · rw [heq]
    exact h.born hne hp hid
  · rw [heq]
    exact h.move hp hid (g.parent? id)

theorem Listed.dispose (h : g.Listed) (id : String) : (g.dispose id).Listed := by
  cases hid : g.scope? id with
  | none =>
    unfold ScopeGraph.dispose
    rwa [hid]
  | some s =>
    have hleft : ((s.parent.elim g (g.dropChild · id)).remove [id]).Listed := by
      refine listed_remove ?_
      intro n q hq
      by_cases hn : n = id
      · exact Or.inl (List.mem_singleton.2 hn)
      · refine Or.inr ?_
        cases hp : s.parent with
        | none =>
          rw [hp] at hq
          exact h n q hq
        | some p =>
          rw [hp] at hq
          have hmem := h n q ((parent?_dropChild g p id n).symm.trans hq)
          rw [Option.elim_some, children_dropChild]
          split
          · exact List.mem_filter.2 ⟨hmem, by simpa using hn⟩
          · exact hmem
    intro n q hq
    have hsame := scope?_dispose hid
    rw [parent?_congr (hsame n)] at hq
    rw [children_congr (hsame q)]
    exact hleft n q hq

theorem Listed.disposeDescendants (h : g.Listed) (id : String) : (g.disposeDescendants id).Listed := by
  cases hid : g.scope? id with
  | none =>
    unfold ScopeGraph.disposeDescendants
    rwa [hid]
  | some s =>
    have hleft : ((g.modify id fun s => { s with children := [] }).remove s.children).Listed := by
      refine listed_remove ?_
      intro n q hq
      have hkept : ∀ m, (g.modify id fun s => { s with children := [] }).parent? m = g.parent? m :=
        parent?_modify fun _ => rfl
      rw [hkept] at hq
      have hmem := h n q hq
      by_cases hqid : q = id
      · refine Or.inl ?_
        subst hqid
        simpa [children, hid] using hmem
      · refine Or.inr ?_
        rwa [children_congr (scope?_modify_of_ne hqid)]
    intro n q hq
    have hsame := scope?_disposeDescendants hid
    rw [parent?_congr (hsame n)] at hq
    rw [children_congr (hsame q)]
    exact hleft n q hq

theorem Listed.apply (h : g.Listed) (op : Operation V) : (op.apply g).Listed := by
  cases op with
  | child parent id => exact h.child parent id
  | dispose id => exact h.dispose id
  | disposeDescendants id => exact h.disposeDescendants id
  | _ => exact h.congr (parent?_apply (by exact trivial)) (children_apply (by exact trivial))

theorem Reachable.listed (h : g.Reachable) : g.Listed := by
  induction h with
  | new => exact listed_new
  | apply op _ ih => exact ih.apply op

end ScopeGraph

end LiveNotes
