import LiveNotes.Scope.Graph
import LiveNotes.Table

/-! What each change of a scope graph leaves of a scope: the scope behind every id after the change, from
the one before it. Nothing but a removal takes scopes away, and a removal takes a scope only together
with all that are listed as its children. -/

namespace LiveNotes

namespace ScopeGraph

variable {V : Type} {g : ScopeGraph V} {id n p : String}

/-! ### One scope -/

theorem scope?_modify (g : ScopeGraph V) (id : String) (f : Scope V → Scope V) (n : String) :
    (g.modify id f).scope? n = if n = id then (g.scope? n).map f else g.scope? n := by
  unfold scope? modify
  have hmap := Table.get?_map (fun n s => if n = id then f s else s) g.scopes n
  refine hmap.trans ?_
  by_cases h : n = id
  · simp [h]
  · simp [h]

theorem scope?_modify_self (g : ScopeGraph V) (id : String) (f : Scope V → Scope V) :
    (g.modify id f).scope? id = (g.scope? id).map f := by
  rw [scope?_modify, if_pos rfl]

theorem scope?_modify_of_ne {f : Scope V → Scope V} (h : n ≠ id) :
    (g.modify id f).scope? n = g.scope? n := by
  rw [scope?_modify, if_neg h]

/-- What a change does not touch of a scope is the same for all scopes. -/
theorem map_scope?_modify {β : Type} {π : Scope V → β} {f : Scope V → Scope V}
    (hf : ∀ s, π (f s) = π s) (n : String) :
    ((g.modify id f).scope? n).map π = (g.scope? n).map π := by
  rw [scope?_modify]
  split
  · rw [Option.map_map]
    exact congrArg (fun h => (g.scope? n).map h) (funext hf)
  · rfl

@[simp] theorem size_modify (g : ScopeGraph V) (id : String) (f : Scope V → Scope V) :
    (g.modify id f).size = g.size := by
  simp [size, modify]

@[simp] theorem scope?_notify (g : ScopeGraph V) (id : String) (event : ScopeEvent) (n : String) :
    (g.notify id event).scope? n = g.scope? n := rfl

@[simp] theorem size_notify (g : ScopeGraph V) (id : String) (event : ScopeEvent) :
    (g.notify id event).size = g.size := rfl

theorem isLive_eq (g : ScopeGraph V) (id : String) : g.isLive id = (g.scope? id).isSome := rfl

theorem scope?_of_dead (h : g.isLive id = false) : g.scope? id = none := by
  rwa [isLive_eq, Option.isSome_eq_false_iff, Option.isNone_iff_eq_none] at h

@[simp] theorem isLive_modify (g : ScopeGraph V) (id : String) (f : Scope V → Scope V) (n : String) :
    (g.modify id f).isLive n = g.isLive n := by
  rw [isLive_eq, isLive_eq, scope?_modify]
  split
  · exact Option.isSome_map
  · rfl

@[simp] theorem isLive_listen (g : ScopeGraph V) (id : String) (name : Option String) (n : String) :
    (g.listen id name).2.isLive n = g.isLive n := isLive_modify _ id _ n

@[simp] theorem isLive_notify (g : ScopeGraph V) (id : String) (event : ScopeEvent) (n : String) :
    (g.notify id event).isLive n = g.isLive n := rfl

theorem scope?_rebind (g : ScopeGraph V) (id : String) (f : Table V → Table V) (n : String) :
    (g.rebind id f).scope? n =
      if n = id then (g.scope? n).map fun s => { s with bindings := f s.bindings } else g.scope? n := by
  unfold rebind
  split
  · rw [scope?_notify, scope?_modify]
  · next hdead =>
    by_cases h : n = id
    · rw [if_pos h, h, scope?_of_dead (Bool.not_eq_true _ ▸ hdead), Option.map_none]
    · rw [if_neg h]

@[simp] theorem size_rebind (g : ScopeGraph V) (id : String) (f : Table V → Table V) :
    (g.rebind id f).size = g.size := by
  unfold rebind
  split
  · rw [size_notify, size_modify]
  · rfl

theorem scope?_setMany (g : ScopeGraph V) (id : String) (more : List (String × V)) (n : String) :
    (g.setMany id more).scope? n =
      if n = id then (g.scope? n).map fun s => { s with bindings := s.bindings.extend more }
      else g.scope? n :=
  scope?_rebind g id _ n

theorem scope?_reset (g : ScopeGraph V) (id n : String) :
    (g.reset id).scope? n =
      if n = id then (g.scope? n).map fun s => { s with bindings := [] } else g.scope? n :=
  scope?_rebind g id _ n

theorem scope?_block (g : ScopeGraph V) (id n : String) :
    (g.block id).scope? n =
      if n = id then (g.scope? n).map fun s => { s with blocked := true } else g.scope? n :=
  scope?_modify g id _ n

theorem scope?_unblock (g : ScopeGraph V) (id n : String) :
    (g.unblock id).scope? n =
      if n = id then (g.scope? n).map fun s => { s with blocked := false } else g.scope? n :=
  scope?_modify g id _ n

theorem scope?_dropChild (g : ScopeGraph V) (p id n : String) :
    (g.dropChild p id).scope? n =
      if n = p then (g.scope? n).map fun s => { s with children := s.children.filter (· != id) }
      else g.scope? n :=
  scope?_modify g p _ n

theorem scope?_addChild (g : ScopeGraph V) (p id n : String) :
    (g.addChild p id).scope? n =
      if n = p then (g.scope? n).map fun s => { s with children := s.children ++ [id] }
      else g.scope? n :=
  scope?_modify g p _ n

theorem scope?_listen (g : ScopeGraph V) (id : String) (name : Option String) (n : String) :
    (g.listen id name).2.scope? n =
      if n = id then (g.scope? n).map fun s =>
        { s with listeners := s.listeners ++ [⟨g.listenersMade + 1, name⟩] }
      else g.scope? n :=
  scope?_modify _ id _ n

theorem scope?_unlisten (g : ScopeGraph V) (id : String) (number : Nat) (n : String) :
    (g.unlisten id number).scope? n =
      if n = id then (g.scope? n).map fun s =>
        { s with listeners := s.listeners.filter (·.number != number) }
      else g.scope? n :=
  scope?_modify g id _ n

/-! ### Removal -/

def remove (g : ScopeGraph V) (ids : List String) : ScopeGraph V :=
  { g with scopes := without g.scopes ids }

theorem get?_without_of_get? {t : Table (Scope V)} {ids : List String} {s : Scope V}
    (h : (without t ids).get? n = some s) : t.get? n = some s := by
  fun_induction without t ids with
  | case1 => exact h
  | case2 t id rest hid ih => exact ih h
  | case3 t id rest s' hid ih =>
    have hleft := ih h
    rw [Table.get?_erase] at hleft
    split at hleft
    · contradiction
    · exact hleft

theorem get?_without_of_none {t : Table (Scope V)} (ids : List String) (h : t.get? n = none) :
    (without t ids).get? n = none := by
  rw [Option.eq_none_iff_forall_ne_some]
  intro s hs
  rw [get?_without_of_get? hs] at h
  contradiction

theorem get?_without_of_mem {t : Table (Scope V)} {ids : List String} (h : n ∈ ids) :
    (without t ids).get? n = none := by
  fun_induction without t ids with
  | case1 => simp at h
  | case2 t id rest hid ih =>
    rcases List.mem_cons.1 h with rfl | hrest
    · exact get?_without_of_none rest hid
    · exact ih hrest
  | case3 t id rest s hid ih =>
    rcases List.mem_cons.1 h with rfl | hrest
    · refine get?_without_of_none _ ?_
      rw [Table.get?_erase, if_pos rfl]
    · exact ih (List.mem_append_right _ hrest)

/-- With a scope all that it lists as children is removed. -/
theorem get?_without_of_child {t : Table (Scope V)} {ids : List String} {s : Scope V}
    (hp : t.get? p = some s) (hgone : (without t ids).get? p = none) (hn : n ∈ s.children) :
    (without t ids).get? n = none := by
  fun_induction without t ids with
  | case1 =>
    rw [hp] at hgone
    contradiction
  | case2 t id rest hid ih => exact ih hp hgone
  | case3 t id rest s' hid ih =>
    by_cases h : p = id
    · -- The children of the parent are the next to be removed.
      subst h
      rw [hp, Option.some.injEq] at hid
      subst hid
      exact get?_without_of_mem (List.mem_append_left _ hn)
    · refine ih ?_ hgone
      rwa [Table.get?_erase, if_neg h]

theorem scope?_foldl_notify (event : String → ScopeEvent) (ids : List String) (g : ScopeGraph V)
    (n : String) : (ids.foldl (fun g c => g.notify id (event c)) g).scope? n = g.scope? n := by
  induction ids generalizing g with
  | nil => rfl
  | cons c ids ih => rw [List.foldl_cons, ih, scope?_notify]

theorem scope?_of_remove {ids : List String} {s : Scope V} (h : (g.remove ids).scope? n = some s) :
    g.scope? n = some s := get?_without_of_get? h

theorem scope?_remove_of_mem {ids : List String} (h : n ∈ ids) : (g.remove ids).scope? n = none :=
  get?_without_of_mem h

theorem scope?_remove_of_child {ids : List String} {s : Scope V} (hp : g.scope? p = some s)
    (hgone : (g.remove ids).scope? p = none) (hn : n ∈ s.children) : (g.remove ids).scope? n = none :=
  get?_without_of_child hp hgone hn

theorem remove_nil (g : ScopeGraph V) : g.remove [] = g := by
  unfold remove
  rw [without]

theorem remove_cons (h : g.isLive id = true) (ids : List String) :
    g.remove (id :: ids) = remove { g with scopes := g.scopes.erase id } (g.children id ++ ids) := by
  unfold remove children scope?
  rw [without]
  split
  · next hnone =>
    have hdead : g.isLive id = false := congrArg Option.isSome hnone
    rw [hdead] at h
    contradiction
  · next s hs => rw [hs, Option.map_some, Option.getD_some]

theorem disposeDescendants_eq (h : g.isLive id = true) :
    g.disposeDescendants id = (g.children id).foldl (fun g c => g.notify id (.childDetached c))
      ((g.modify id fun s => { s with children := [] }).remove (g.children id)) := by
  obtain ⟨s, hs⟩ := Option.isSome_iff_exists.1 h
  have hid : g.scope? id = some s := hs
  unfold disposeDescendants children
  rw [hid]
  rfl

theorem scope?_disposeDescendants {s : Scope V} (h : g.scope? id = some s) (n : String) :
    (g.disposeDescendants id).scope? n =
      ((g.modify id fun s => { s with children := [] }).remove s.children).scope? n := by
  have hlive : g.isLive id = true := congrArg Option.isSome h
  have hchildren : g.children id = s.children := congrArg (fun r => (r.map (·.children)).getD []) h
  rw [disposeDescendants_eq hlive, hchildren]
  exact scope?_foldl_notify _ _ _ _

theorem disposeDescendants_of_none (h : g.scope? id = none) : g.disposeDescendants id = g := by
  unfold disposeDescendants
  rw [h]

theorem disposeDescendants_of_childless {s : Scope V} (h : g.scope? id = some s) (hc : s.children = []) :
    g.disposeDescendants id = g.modify id fun s => { s with children := [] } := by
  have hlive : g.isLive id = true := congrArg Option.isSome h
  have hchildren : g.children id = s.children := congrArg (fun r => (r.map (·.children)).getD []) h
  rw [disposeDescendants_eq hlive, hchildren, hc, remove_nil, List.foldl_nil]

theorem dispose_of_top (hlive : g.isLive id = true) (h : g.parent? id = none) :
    g.dispose id = g.remove [id] := by
  obtain ⟨s, hs⟩ := Option.isSome_iff_exists.1 hlive
  have hid : g.scope? id = some s := hs
  have hp : s.parent = none := (congrArg (·.bind (·.parent)) hid).symm.trans h
  unfold dispose
  rw [hid]
  dsimp only
  rw [hp]
  rfl

theorem dispose_of_below (h : g.parent? id = some p) :
    g.dispose id = ((g.dropChild p id).remove [id]).notify p (.childDetached id) := by
  obtain ⟨s, hid, hp⟩ := Option.bind_eq_some_iff.1 h
  unfold dispose
  rw [hid]
  dsimp only
  rw [hp]
  rfl

theorem scope?_dispose {s : Scope V} (h : g.scope? id = some s) (n : String) :
    (g.dispose id).scope? n = ((s.parent.elim g (g.dropChild · id)).remove [id]).scope? n := by
  have hlive : g.isLive id = true := congrArg Option.isSome h
  have hparent : g.parent? id = s.parent := congrArg (·.bind (·.parent)) h
  cases hp : s.parent with
  | none => rw [dispose_of_top hlive (hparent.trans hp), Option.elim_none]
  | some p => rw [dispose_of_below (hparent.trans hp), scope?_notify, Option.elim_some]

theorem dispose_of_none (h : g.scope? id = none) : g.dispose id = g := by
  unfold dispose
  rw [h]

theorem scope?_dispose_self (g : ScopeGraph V) (id : String) : (g.dispose id).scope? id = none := by
  cases h : g.scope? id with
  | none =>
    rw [dispose_of_none h]
    exact h
  | some s =>
    rw [scope?_dispose h]
    exact scope?_remove_of_mem (List.mem_singleton.2 rfl)

/-! ### What has gone stays away -/

theorem isLive_of_remove {ids : List String} (h : (g.remove ids).isLive n = true) : g.isLive n = true := by
  obtain ⟨s, hs⟩ := Option.isSome_iff_exists.1 h
  have hbefore : g.scope? n = some s := scope?_of_remove hs
  rw [isLive_eq, hbefore]
  rfl

theorem scope?_remove_of_isLive {ids : List String} (h : (g.remove ids).isLive n = true) :
    (g.remove ids).scope? n = g.scope? n := by
  obtain ⟨s, hs⟩ := Option.isSome_iff_exists.1 h
  have hleft : (g.remove ids).scope? n = some s := hs
  rw [hleft, scope?_of_remove hleft]

theorem isLive_of_dispose (h : (g.dispose id).isLive n = true) : g.isLive n = true := by
  cases hid : g.scope? id with
  | none => rwa [dispose_of_none hid] at h
  | some s =>
    rw [isLive_eq, scope?_dispose hid] at h
    have hbefore : (s.parent.elim g (g.dropChild · id)).isLive n = true := isLive_of_remove h
    cases hp : s.parent with
    | none =>
      rw [hp] at hbefore
      exact hbefore
    | some p =>
      rw [hp] at hbefore
      have hdropped : (g.dropChild p id).isLive n = true := hbefore
      exact (isLive_modify g p _ n).symm.trans hdropped

theorem isLive_of_disposeDescendants (h : (g.disposeDescendants id).isLive n = true) :
    g.isLive n = true := by
  cases hid : g.scope? id with
  | none => rwa [disposeDescendants_of_none hid] at h
  | some s =>
    rw [isLive_eq, scope?_disposeDescendants hid] at h
    have hbefore : (g.modify id fun s => { s with children := [] }).isLive n = true := isLive_of_remove h
    exact (isLive_modify g id _ n).symm.trans hbefore

end ScopeGraph

end LiveNotes
