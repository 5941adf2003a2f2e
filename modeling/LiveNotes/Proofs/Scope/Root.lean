import LiveNotes.Proofs.Scope.Ancestry
import LiveNotes.Proofs.Scope.Links

/-! The root of a graph. It has no parent, so that nothing else that goes takes it along and no list of
children leads to it. But it can be disposed of by its own handle, and moved below another scope. -/

namespace LiveNotes.ScopeGraph

open Relation

variable {V : Type} {g : ScopeGraph V} {id n p : String}

/-- The root stands at the top, and so the graph is never empty. -/
structure Rooted (g : ScopeGraph V) : Prop where
  live : g.isLive rootScopeId = true
  top : g.parent? rootScopeId = none
  counted : g.size ≠ 0

/-- An operation disposes of the root, or puts it below a live scope. -/
def Operation.Uproots (g : ScopeGraph V) : Operation V → Prop
  | .dispose id => id = rootScopeId
  | .child p id => id = rootScopeId ∧ id ≠ p ∧ g.isLive p = true
  | _ => False

theorem rooted_new : (new : ScopeGraph V).Rooted where
  live := rfl
  top := parent?_new rootScopeId
  counted := Nat.one_ne_zero

theorem size_ne_zero_of_isLive (h : g.isLive id = true) : g.size ≠ 0 := by
  have hmem : id ∈ g.scopes.map Prod.fst := mem_scopes_of_isLive h
  have hpos : 0 < (g.scopes.map Prod.fst).length := List.length_pos_of_mem hmem
  rw [List.length_map] at hpos
  exact Nat.ne_of_gt hpos

/-! ### Scopes at the top -/

/-- Nothing leads to a scope without a parent but the scope itself. -/
theorem Linked.eq_of_below_of_top (h : g.Linked) (htop : g.parent? n = none) (hbelow : g.Below id n) :
    n = id := by
  rcases ReflTransGen.cases_tail hbelow with heq | ⟨p, -, hp⟩
  · exact heq
  · have hparent : g.parent? n = some p := (h.named p n hp).2
    rw [htop] at hparent
    contradiction

/-- A scope without a parent goes only when it is disposed of itself. -/
theorem Linked.isLive_apply_of_top (h : g.Linked) (hlive : g.isLive n = true) (htop : g.parent? n = none)
    (op : Operation V) (hop : op ≠ .dispose n) : (op.apply g).isLive n = true := by
  cases op with
  | child p id => exact (isLive_child g p id n).2 (Or.inl hlive)
  | dispose id =>
    have hother : ¬ g.Below id n := fun hbelow => hop (h.eq_of_below_of_top htop hbelow ▸ rfl)
    exact h.isLive_dispose.2 ⟨hlive, hother⟩
  | disposeDescendants id =>
    have hclear : ∀ c ∈ g.children id, ¬ g.Below c n := by
      intro c hc hbelow
      have hparent : g.parent? c = some id := (h.named id c hc).2
      rw [← h.eq_of_below_of_top htop hbelow, htop] at hparent
      contradiction
    have hsame := scope?_disposeDescendants_of_clear hclear
    exact (congrArg Option.isSome hsame).trans ((isLive_modify g id _ n).trans hlive)
  | _ => exact (isLive_apply (by exact trivial) n).trans hlive

/-! ### Operations -/

theorem Linked.rooted_apply_iff (h : g.Linked) (hroot : g.Rooted) (op : Operation V) :
    (op.apply g).Rooted ↔ ¬ op.Uproots g := by
  constructor
  · intro hafter hop
    cases op with
    | dispose id =>
      obtain rfl : id = rootScopeId := hop
      have hgone : (g.dispose rootScopeId).isLive rootScopeId = true := hafter.live
      rw [isLive_eq, scope?_dispose_self] at hgone
      contradiction
    | child p id =>
      obtain ⟨rfl, hne, hp⟩ := hop
      have hmoved := (parent?_child g p rootScopeId rootScopeId).trans (if_pos ⟨rfl, hne, hp⟩)
      have htop : (g.child p rootScopeId).parent? rootScopeId = none := hafter.top
      rw [hmoved] at htop
      contradiction
    | _ => exact hop
  · intro hop
    have hlive : (op.apply g).isLive rootScopeId = true := by
      refine h.isLive_apply_of_top hroot.live hroot.top op ?_
      rintro rfl
      exact hop rfl
    have htop : (op.apply g).parent? rootScopeId = none := by
      rw [Option.eq_none_iff_forall_ne_some]
      intro p hp
      rcases parent?_of_apply op hp with hold | ⟨rfl, hne⟩
      · rw [hroot.top] at hold
        contradiction
      · -- Below a scope that is gone nothing can be put.
        have hdead : g.isLive p = false := by
          cases hlive : g.isLive p with
          | true => exact absurd ⟨rfl, hne, hlive⟩ hop
          | false => rfl
        have hsame : (Operation.child p rootScopeId).apply g = g := child_of_nothing (Or.inr hdead)
        rw [hsame, hroot.top] at hp
        contradiction
    exact ⟨hlive, htop, size_ne_zero_of_isLive hlive⟩

/-- In all graphs of a run from the new one the root is live and has no parent, and the graph is not empty,
exactly when no operation disposes of the root or puts it below another scope. -/
theorem throughout_rooted_iff (ops : List (Operation V)) :
    Operation.Throughout Rooted ops (new : ScopeGraph V) ↔
      Operation.Avoids Operation.Uproots ops (new : ScopeGraph V) := by
  refine Operation.throughout_iff_avoids (I := Linked) ?_ ?_ ops linked_new rooted_new
  · exact fun g op h => h.apply op
  · exact fun g op h hroot => h.rooted_apply_iff hroot op

def uprooted : ScopeGraph Nat := Operation.run [.child rootScopeId "a", .dispose rootScopeId] new

def demoted : ScopeGraph Nat := Operation.run [.child rootScopeId "a", .child "a" rootScopeId] new

/-- Its own handle disposes of the root, and of all the graph with it. Put below its child it has a parent. -/
theorem root_goes :
    (uprooted.Reachable ∧ uprooted.isLive rootScopeId = false ∧ uprooted.size = 0) ∧
      demoted.Reachable ∧ demoted.parent? rootScopeId = some "a" := by
  have hempty : uprooted = { scopes := [], births := 2 } := by
    show ((new : ScopeGraph Nat).child rootScopeId "a").dispose rootScopeId = _
    rw [dispose_of_top rfl rfl, remove_cons rfl]
    show remove _ ["a"] = _
    rw [remove_cons rfl]
    exact remove_nil _
  refine ⟨⟨Reachable.new.run _, ?_, ?_⟩, Reachable.new.run _, by decide +kernel⟩
  · rw [hempty]
    rfl
  · rw [hempty]
    rfl

end LiveNotes.ScopeGraph
