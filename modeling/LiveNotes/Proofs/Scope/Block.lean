import LiveNotes.Proofs.Scope.Climb
import LiveNotes.Proofs.Scope.Operation

/-! Blocks of scopes. A scope stays blocked under all operations but its own release and those that
remove it, and no wait climbs past it meanwhile. -/

namespace LiveNotes.ScopeGraph

variable {V : Type} {g : ScopeGraph V} {id n p : String}

theorem isBlocked_modify {f : Scope V → Scope V} (hf : ∀ s, (f s).blocked = s.blocked) (n : String) :
    (g.modify id f).isBlocked n = g.isBlocked n :=
  congrArg (·.getD false) (map_scope?_modify hf n)

theorem isBlocked_rebind (g : ScopeGraph V) (id : String) (f : Table V → Table V) (n : String) :
    (g.rebind id f).isBlocked n = g.isBlocked n := by
  unfold isBlocked
  rw [scope?_rebind]
  split
  · rw [Option.map_map]
    rfl
  · rfl

theorem isBlocked_block (g : ScopeGraph V) (id n : String) :
    (g.block id).isBlocked n = if n = id then g.isLive n else g.isBlocked n := by
  unfold isBlocked
  rw [scope?_block, isLive_eq]
  split
  · cases g.scope? n with
    | none => rfl
    | some s => rfl
  · rfl

theorem isBlocked_unblock (g : ScopeGraph V) (id n : String) :
    (g.unblock id).isBlocked n = if n = id then false else g.isBlocked n := by
  unfold isBlocked
  rw [scope?_unblock]
  split
  · cases g.scope? n with
    | none => rfl
    | some s => rfl
  · rfl

theorem isLive_of_isBlocked (h : g.isBlocked n = true) : g.isLive n = true := by
  unfold isBlocked at h
  rw [isLive_eq]
  cases hs : g.scope? n with
  | none =>
    rw [hs] at h
    contradiction
  | some s => rfl

/-! ### Operations -/

theorem unlinked_blocked : Unlinked fun s : Scope V => s.blocked := fun _ _ _ => rfl

theorem isBlocked_child (g : ScopeGraph V) (p id n : String) :
    (g.child p id).isBlocked n = g.isBlocked n :=
  part_child unlinked_blocked (fun _ _ => rfl) p id n

theorem isBlocked_dispose (h : (g.dispose id).isLive n = true) :
    (g.dispose id).isBlocked n = g.isBlocked n := part_dispose unlinked_blocked h

theorem isBlocked_disposeDescendants (h : (g.disposeDescendants id).isLive n = true) :
    (g.disposeDescendants id).isBlocked n = g.isBlocked n := part_disposeDescendants unlinked_blocked h

/-- An operation releases a scope. -/
def Operation.Releases (g : ScopeGraph V) (id : String) (op : Operation V) : Prop :=
  op = .unblock id ∨ (op.apply g).isLive id = false

theorem isBlocked_apply_iff (op : Operation V) (h : g.isBlocked id = true) :
    (op.apply g).isBlocked id = true ↔ ¬ op.Releases g id := by
  constructor
  · rintro hblocked (rfl | hdead)
    · have hopen := isBlocked_unblock g id id
      rw [if_pos rfl] at hopen
      exact Bool.false_ne_true (hopen.symm.trans hblocked)
    · exact Bool.false_ne_true (hdead.symm.trans (isLive_of_isBlocked hblocked))
  · intro hkept
    obtain ⟨hne, hdead⟩ := not_or.1 hkept
    have hlive : (op.apply g).isLive id = true := by simpa using hdead
    cases op with
    | child parent n => exact (isBlocked_child g parent n id).trans h
    | setMany n bindings => exact (isBlocked_rebind g n _ id).trans h
    | reset n => exact (isBlocked_rebind g n _ id).trans h
    | block n =>
      refine (isBlocked_block g n id).trans ?_
      split
      · exact isLive_of_isBlocked h
      · exact h
    | unblock n =>
      have hn : id ≠ n := fun heq => hne (heq ▸ rfl)
      exact (isBlocked_unblock g n id).trans ((if_neg hn).trans h)
    | dispose n => exact (isBlocked_dispose hlive).trans h
    | disposeDescendants n => exact (isBlocked_disposeDescendants hlive).trans h
    | listen n name =>
      have hmore :
          ({ g with listenersMade := g.listenersMade + 1 } : ScopeGraph V).isBlocked id = true := h
      refine (isBlocked_modify ?_ id).trans hmore
      exact fun _ => rfl
    | unlisten n number =>
      refine (isBlocked_modify ?_ id).trans h
      exact fun _ => rfl

/-! ### Waits -/

/-- A wait at a blocked scope or below it goes on no further than to that one. -/
theorem goOn_of_isBlocked {wait : ScopeWait} (hwait : g.Current wait) (h : g.isBlocked id = true)
    (habove : Above g.parent? wait.id id) (count : Nat) :
    ∃ wait', g.goOn count wait = some wait' ∧ Above g.parent? wait'.id id := by
  have hclosed : ¬ g.Open id := fun hopen => Bool.false_ne_true (hopen.symm.trans h)
  cases hgo : g.goOn count wait with
  | none => exact absurd ((goOn_eq_none hwait hgo).above habove).here hclosed
  | some wait' => exact ⟨wait', rfl, (goOn_eq_some hwait hgo).1.above_of_not_free hclosed habove⟩

end LiveNotes.ScopeGraph
