import LiveNotes.Proofs.Scope.Ancestry
import LiveNotes.Proofs.Scope.Links

/-! Handles of scopes that have gone. A handle is an id and nothing else. As long as no scope has that id,
nothing is found and nothing is done through the handle. But a scope that is made with the same id later
answers to the old handle, and ids are used again with every pass over a document. -/

namespace LiveNotes.ScopeGraph

variable {V : Type} {g : ScopeGraph V} {id n name : String}

/-- Nothing is found through a handle, no wait at it lasts, and what is done through it changes no scope and
is not heard of. -/
structure Dead (g : ScopeGraph V) (id : String) : Prop where
  disposed : g.isLive id = false
  get : ∀ name, g.get? id name = none
  has : ∀ name, g.has id name = false
  unblocked : g.isBlocked id = false
  waits : ∀ w : ScopeWait, w.id = id → g.letsGo w = true ∧ g.await? w = none
  still : ∀ op : Operation V, op.handle = id →
    (op.apply g).scopes = g.scopes ∧ (op.apply g).heard = g.heard

/-- An operation makes a scope with an id that none has. -/
def Operation.Revives (id : String) (g : ScopeGraph V) : Operation V → Prop
  | .child p n => n = id ∧ g.isLive p = true
  | _ => False

/-! ### Through a dead handle -/

theorem path_of_dead (h : g.isLive id = false) : g.path id = [] := by
  unfold path
  cases g.size with
  | zero => rfl
  | succ count => rw [upwards, scope?_of_dead h]

theorem modify_of_dead (h : g.isLive id = false) (f : Scope V → Scope V) : g.modify id f = g := by
  have habsent : ∀ p ∈ g.scopes, p.1 ≠ id := by
    have hnone : g.scopes.lookup id = none := scope?_of_dead h
    intro p hp heq
    have hother := List.lookup_eq_none_iff.1 hnone p hp
    simp [heq] at hother
  have hsame : g.scopes.map (fun p => (p.1, if p.1 = id then f p.2 else p.2)) =
      g.scopes.map fun p => p := by
    refine List.map_congr_left ?_
    intro p hp
    rw [if_neg (habsent p hp)]
  rw [List.map_id'] at hsame
  unfold modify
  rw [hsame]

theorem rebind_of_dead (h : g.isLive id = false) (f : Table V → Table V) : g.rebind id f = g := by
  unfold rebind
  exact if_neg (by simp [h])

theorem still_of_dead (h : g.isLive id = false) (op : Operation V) (hop : op.handle = id) :
    (op.apply g).scopes = g.scopes ∧ (op.apply g).heard = g.heard := by
  have hsame : ∀ g' : ScopeGraph V, g' = g → g'.scopes = g.scopes ∧ g'.heard = g.heard := by
    rintro g' rfl
    exact ⟨rfl, rfl⟩
  cases op with
  | child p n =>
    obtain rfl : p = id := hop
    exact hsame (g.child p n) (child_of_nothing (Or.inr h))
  | setMany n bindings =>
    obtain rfl : n = id := hop
    exact hsame (g.setMany n bindings) (rebind_of_dead h _)
  | reset n =>
    obtain rfl : n = id := hop
    exact hsame (g.reset n) (rebind_of_dead h _)
  | block n =>
    obtain rfl : n = id := hop
    exact hsame (g.block n) (modify_of_dead h _)
  | unblock n =>
    obtain rfl : n = id := hop
    exact hsame (g.unblock n) (modify_of_dead h _)
  | dispose n =>
    obtain rfl : n = id := hop
    exact hsame (g.dispose n) (dispose_of_none (scope?_of_dead h))
  | disposeDescendants n =>
    obtain rfl : n = id := hop
    exact hsame (g.disposeDescendants n) (disposeDescendants_of_none (scope?_of_dead h))
  | listen n name =>
    obtain rfl : n = id := hop
    -- The listener gets a number, but no scope keeps it.
    have hcounted : ({ g with listenersMade := g.listenersMade + 1 } : ScopeGraph V).isLive n = false := h
    have hlistened := modify_of_dead hcounted fun s =>
      { s with listeners := s.listeners ++ [⟨g.listenersMade + 1, name⟩] }
    have hscopes := congrArg (fun g' : ScopeGraph V => g'.scopes) hlistened
    have hheard := congrArg (fun g' : ScopeGraph V => g'.heard) hlistened
    exact ⟨hscopes, hheard⟩
  | unlisten n number =>
    obtain rfl : n = id := hop
    exact hsame (g.unlisten n number) (modify_of_dead h _)

/-- A handle is dead when its scope is gone, and only then. -/
theorem dead_iff : g.Dead id ↔ g.isLive id = false := by
  refine ⟨Dead.disposed, fun h => ?_⟩
  have hnone : g.scope? id = none := scope?_of_dead h
  have hpath : g.path id = [] := path_of_dead h
  refine ⟨h, ?_, ?_, ?_, ?_, still_of_dead h⟩
  · intro name
    unfold get?
    rw [hpath, List.findSome?_nil]
  · intro name
    unfold has
    rw [hpath, List.any_nil]
  · unfold isBlocked
    rw [hnone]
    rfl
  · rintro w rfl
    have hgo : g.letsGo w = true := by
      unfold letsGo
      rw [hnone]
    have hup : g.parent? w.id = none := by
      unfold parent?
      rw [hnone]
      rfl
    refine ⟨hgo, ?_⟩
    unfold await?
    rw [goOn, if_pos hgo, hup]

/-! ### Operations -/

/-- Of all operations only one that makes a child brings an id back. -/
theorem isLive_apply_of_dead (h : g.isLive id = false) (op : Operation V) :
    (op.apply g).isLive id = true ↔ op.Revives id g := by
  have hdead : ¬ g.isLive id = true := by simp [h]
  cases op with
  | child p n =>
    have hchild : ((Operation.child p n).apply g).isLive id = true ↔
        g.isLive id = true ∨ id = n ∧ n ≠ p ∧ g.isLive p = true := isLive_child g p n id
    rw [hchild]
    constructor
    · rintro (hlive | ⟨rfl, -, hp⟩)
      · exact absurd hlive hdead
      · exact ⟨rfl, hp⟩
    · rintro ⟨rfl, hp⟩
      have hne : n ≠ p := by
        rintro rfl
        exact hdead hp
      exact Or.inr ⟨rfl, hne, hp⟩
  | dispose n => exact iff_of_false (fun hlive => hdead (isLive_of_dispose hlive)) not_false
  | disposeDescendants n =>
    exact iff_of_false (fun hlive => hdead (isLive_of_disposeDescendants hlive)) not_false
  | _ => exact iff_of_false (fun hlive => hdead ((isLive_apply (by exact trivial) id).symm.trans hlive)) not_false

theorem Dead.apply_iff (h : g.Dead id) (op : Operation V) :
    (op.apply g).Dead id ↔ ¬ op.Revives id g := by
  rw [dead_iff, ← isLive_apply_of_dead h.disposed op, Bool.not_eq_true]

/-- The handle of a scope that has gone stays dead exactly as long as no scope is made with its id. -/
theorem throughout_dead_iff (h : g.isLive id = false) (ops : List (Operation V)) :
    Operation.Throughout (Dead · id) ops g ↔ Operation.Avoids (Operation.Revives id) ops g := by
  refine Operation.throughout_iff_avoids (I := fun _ => True) ?_ ?_ ops trivial (dead_iff.2 h)
  · exact fun _ _ _ => trivial
  · exact fun g op _ hdead => hdead.apply_iff op

/-! ### An id that is used again -/

def disposed : ScopeGraph Nat := Operation.run [.child rootScopeId "a", .child "a" "b", .dispose "a"] new

/-- Below the root there is a new scope with the id of the one that has gone. -/
def revived : ScopeGraph Nat :=
  Operation.run [.child rootScopeId "b", .setMany "b" [("x", 7)], .block "b"] disposed

theorem disposed_eq : disposed = { (new : ScopeGraph Nat) with births := 3 } := by
  show (((new : ScopeGraph Nat).child rootScopeId "a").child "a" "b").dispose "a" = _
  rw [dispose_of_below rfl, remove_cons rfl]
  show (remove _ ["b"]).notify _ _ = _
  rw [remove_cons rfl]
  show (remove _ []).notify _ _ = _
  rw [remove_nil]
  rfl

theorem throughout_dead_iff_disposed :
    disposed.isLive "b" = false ∧
      Operation.Throughout (Dead · "b") [.setMany "b" [("x", 1)], .child rootScopeId "a"] disposed := by
  have hgone : disposed.isLive "b" = false := by
    rw [disposed_eq]
    rfl
  refine ⟨hgone, (throughout_dead_iff hgone _).2 ?_⟩
  have hother : ¬ Operation.Revives "b" ((Operation.setMany "b" [("x", 1)]).apply disposed)
      (.child rootScopeId "a") := fun hrevives => absurd hrevives.1 (by decide)
  exact ⟨not_false, hother, trivial⟩

/-- The handle of the scope that has gone finds what the new one binds, and its writes and waits are those of
the new one. -/
theorem handle_revives :
    disposed.Reachable ∧ disposed.isLive "b" = false ∧ revived.get? "b" "x" = some 7 ∧
      revived.isBlocked "b" = true ∧ revived.letsGo { id := "b" } = false ∧
      (revived.set "b" "x" 8).get? "b" "x" = some 8 := by
  refine ⟨Reachable.new.run _, ?_⟩
  unfold revived
  rw [disposed_eq]
  decide +kernel

end LiveNotes.ScopeGraph
