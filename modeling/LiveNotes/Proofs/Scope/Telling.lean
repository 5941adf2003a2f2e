import LiveNotes.Proofs.Scope.Operation

/-! What operations tell of. An operation changes a graph in silence; then it tells of events one after the
other, each of them to the listeners of one scope. Listeners stay with their scope until they are taken off or
the scope goes. -/

namespace LiveNotes.ScopeGraph

variable {V : Type} {g : ScopeGraph V} {id n p : String} {number : Nat}

/-- The numbers of the listeners of a scope. -/
def listeners (g : ScopeGraph V) (id : String) : List Nat :=
  ((g.scope? id).map fun s => s.listeners.map (·.number)).getD []

/-- The events that a listener has heard of, first things first. -/
def heardBy (g : ScopeGraph V) (number : Nat) : List ScopeEvent :=
  (g.heard.filter fun h => h.listener == number).map (·.event)

/-- Tells of events, each one at a scope. -/
def tell (g : ScopeGraph V) (told : List (String × ScopeEvent)) : ScopeGraph V :=
  told.foldl (fun g t => g.notify t.1 t.2) g

/-- The events that an operation tells of, each with its scope. -/
def Operation.tells (g : ScopeGraph V) : Operation V → List (String × ScopeEvent)
  | .child p id =>
    if id == p || !g.isLive p || g.parent? id == some p then []
    else (g.parent? id).toList.map (·, .childDetached id) ++ [(p, .childAttached id)]
  | .setMany id _ => if g.isLive id then [(id, .bindingsChanged)] else []
  | .reset id => if g.isLive id then [(id, .bindingsChanged)] else []
  | .dispose id => (g.parent? id).toList.map (·, .childDetached id)
  | .disposeDescendants id => (g.children id).map (id, .childDetached ·)
  | _ => []

/-! ### The listeners of a scope -/

theorem listeners_of_dead (h : g.isLive id = false) : g.listeners id = [] := by
  unfold listeners
  rw [scope?_of_dead h]
  rfl

theorem listeners_congr {g' : ScopeGraph V} (h : g'.scope? n = g.scope? n) :
    g'.listeners n = g.listeners n := part_congr h

theorem listeners_modify {f : Scope V → Scope V} (hf : ∀ s, (f s).listeners = s.listeners) (n : String) :
    (g.modify id f).listeners n = g.listeners n := by
  refine part_modify ?_ n
  intro s
  rw [hf]

theorem listeners_rebind (g : ScopeGraph V) (id : String) (f : Table V → Table V) (n : String) :
    (g.rebind id f).listeners n = g.listeners n := by
  unfold rebind
  split
  · have hmodified : (g.modify id fun s => { s with bindings := f s.bindings }).listeners n = g.listeners n := by
      refine listeners_modify ?_ n
      exact fun _ => rfl
    exact hmodified
  · rfl

theorem unlinked_listeners : Unlinked fun s : Scope V => s.listeners.map (·.number) := fun _ _ _ => rfl

theorem listeners_listen (g : ScopeGraph V) (id : String) (name : Option String) (n : String) :
    (g.listen id name).2.listeners n =
      if n = id ∧ g.isLive n = true then g.listeners n ++ [g.listenersMade + 1] else g.listeners n := by
  unfold listeners
  rw [scope?_listen, isLive_eq]
  by_cases hn : n = id
  · rw [if_pos hn]
    cases g.scope? n with
    | none => simp
    | some s => simp [hn]
  · rw [if_neg hn, if_neg fun hand => hn hand.1]

theorem listeners_unlisten (g : ScopeGraph V) (id : String) (number : Nat) (n : String) :
    (g.unlisten id number).listeners n =
      if n = id then (g.listeners n).filter (· != number) else g.listeners n := by
  unfold listeners
  rw [scope?_unlisten]
  by_cases hn : n = id
  · rw [if_pos hn, if_pos hn]
    cases g.scope? n with
    | none => rfl
    | some s => simp [List.filter_map, Function.comp_def]
  · rw [if_neg hn, if_neg hn]

/-- Listeners stay with their scope: one comes only by `listen`, and goes only by `unlisten` or with the
scope. -/
theorem listeners_apply (op : Operation V) (h : (op.apply g).isLive n = true) :
    (op.apply g).listeners n =
      match op with
      | .listen id _ => if n = id then g.listeners n ++ [g.listenersMade + 1] else g.listeners n
      | .unlisten id k => if n = id then (g.listeners n).filter (· != k) else g.listeners n
      | _ => g.listeners n := by
  cases op with
  | child p id => exact part_child unlinked_listeners (fun _ _ => rfl) p id n
  | setMany id bindings => exact listeners_rebind g id _ n
  | reset id => exact listeners_rebind g id _ n
  | block id =>
    show (g.block id).listeners n = g.listeners n
    refine listeners_modify ?_ n
    exact fun _ => rfl
  | unblock id =>
    show (g.unblock id).listeners n = g.listeners n
    refine listeners_modify ?_ n
    exact fun _ => rfl
  | dispose id => exact part_dispose unlinked_listeners h
  | disposeDescendants id => exact part_disposeDescendants unlinked_listeners h
  | listen id name =>
    have hlive : g.isLive n = true := (isLive_listen g id name n).symm.trans h
    have hlisten := listeners_listen g id name n
    simp only [hlive, and_true] at hlisten
    exact hlisten
  | unlisten id k => exact listeners_unlisten g id k n

theorem count_listeners_apply (op : Operation V)
    (hnumber : number ≤ g.listenersMade ∨ (op.apply g).listenersMade < number) :
    ((op.apply g).listeners n).count number = (g.listeners n).count number ∨
      ((op.apply g).listeners n).count number = 0 ∧
        ((op.apply g).isLive n = false ∨ op = .unlisten n number) := by
  cases hlive : (op.apply g).isLive n with
  | false =>
    rw [listeners_of_dead hlive]
    exact Or.inr ⟨rfl, Or.inl rfl⟩
  | true =>
    rw [listeners_apply op hlive]
    cases op with
    | listen id name =>
      have hne : g.listenersMade + 1 ≠ number := by
        rcases hnumber with hold | hlater
        · exact Nat.ne_of_gt (Nat.lt_succ_of_le hold)
        · exact Nat.ne_of_lt hlater
      dsimp only
      split
      · rw [List.count_append, List.count_singleton, if_neg (by simpa using hne)]
        exact Or.inl rfl
      · exact Or.inl rfl
    | unlisten id k =>
      dsimp only
      by_cases hn : n = id
      · rw [if_pos hn]
        by_cases hk : number = k
        · refine Or.inr ⟨?_, Or.inr (by rw [hn, hk])⟩
          rw [List.count_eq_zero, hk]
          simp
        · refine Or.inl (List.count_filter ?_)
          simpa using hk
      · rw [if_neg hn]
        exact Or.inl rfl
    | _ => exact Or.inl rfl

/-! ### What operations tell of -/

theorem heardBy_notify (g : ScopeGraph V) (id : String) (event : ScopeEvent) (number : Nat) :
    (g.notify id event).heardBy number =
      g.heardBy number ++ List.replicate ((g.listeners id).count number) event := by
  have hnew : ∀ l : List Listener,
      (((l.map fun l => (⟨l.number, event, l.name.bind (g.get? id)⟩ : Heard V)).filter
          fun h => h.listener == number).map (·.event)) =
        List.replicate ((l.map (·.number)).count number) event := by
    intro l
    induction l with
    | nil => rfl
    | cons l ls ih =>
      by_cases h : l.number = number
      · simp [h, ih, List.replicate_succ]
      · simp [h, ih]
  unfold heardBy notify listeners
  rw [List.filter_append, List.map_append, hnew]
  cases g.scope? id with
  | none => rfl
  | some s => rfl

theorem scope?_tell (g : ScopeGraph V) (told : List (String × ScopeEvent)) (n : String) :
    (g.tell told).scope? n = g.scope? n := by
  unfold tell
  induction told generalizing g with
  | nil => rfl
  | cons t ts ih => rw [List.foldl_cons, ih, scope?_notify]

theorem listenersMade_tell (g : ScopeGraph V) (told : List (String × ScopeEvent)) :
    (g.tell told).listenersMade = g.listenersMade := by
  unfold tell
  induction told generalizing g with
  | nil => rfl
  | cons t ts ih =>
    rw [List.foldl_cons, ih]
    rfl

theorem heardBy_tell (g : ScopeGraph V) (told : List (String × ScopeEvent)) (number : Nat) :
    (g.tell told).heardBy number = g.heardBy number ++
      told.flatMap fun t => List.replicate ((g.listeners t.1).count number) t.2 := by
  unfold tell
  induction told generalizing g with
  | nil => simp
  | cons t ts ih =>
    have hsame : ∀ n, (g.notify t.1 t.2).listeners n = g.listeners n := fun _ => rfl
    rw [List.foldl_cons, ih, heardBy_notify, List.flatMap_cons, List.append_assoc]
    simp only [hsame]

/-- An operation changes what it changes in silence, and then tells of it. -/
theorem exists_apply_eq_tell (g : ScopeGraph V) (op : Operation V) :
    ∃ g' : ScopeGraph V, g'.heard = g.heard ∧ g.listenersMade ≤ g'.listenersMade ∧
      op.apply g = g'.tell (op.tells g) := by
  have hrebind : ∀ n (f : Table V → Table V), ∃ g' : ScopeGraph V, g'.heard = g.heard ∧
      g.listenersMade ≤ g'.listenersMade ∧
      g.rebind n f = g'.tell (if g.isLive n then [(n, .bindingsChanged)] else []) := by
    intro n f
    unfold rebind
    split
    · exact ⟨g.modify n fun s => { s with bindings := f s.bindings }, rfl, Nat.le_refl _, rfl⟩
    · exact ⟨g, rfl, Nat.le_refl _, rfl⟩
  cases op with
  | child p c =>
    dsimp only [Operation.apply, Operation.tells]
    rcases g.child_cases p c with ⟨hnothing, heq⟩ | ⟨⟨hne, hp, hc⟩, heq⟩ | ⟨⟨hne, hp, -, hup⟩, heq⟩
    · rw [heq, if_pos (by simpa [or_assoc] using hnothing)]
      exact ⟨g, rfl, Nat.le_refl _, rfl⟩
    · have hup : g.parent? c = none := congrArg (·.bind (·.parent)) hc
      rw [heq, if_neg (by simp [hne, hp, hup]), hup]
      exact ⟨g.born p c, rfl, Nat.le_refl _, rfl⟩
    · rw [heq, if_neg (by simp [hne, hp, hup])]
      cases g.parent? c with
      | none => exact ⟨g.move none p c, rfl, Nat.le_refl _, rfl⟩
      | some o =>
        exact ⟨((g.dropChild o c).modify c fun s => { s with parent := some p }).addChild p c,
          rfl, Nat.le_refl _, rfl⟩
  | setMany n bindings => exact hrebind n (·.extend bindings)
  | reset n => exact hrebind n fun _ => []
  | block n => exact ⟨g.block n, rfl, Nat.le_refl _, rfl⟩
  | unblock n => exact ⟨g.unblock n, rfl, Nat.le_refl _, rfl⟩
  | dispose n =>
    dsimp only [Operation.apply, Operation.tells]
    cases hp : g.parent? n with
    | some p =>
      rw [dispose_of_below hp]
      exact ⟨(g.dropChild p n).remove [n], rfl, Nat.le_refl _, rfl⟩
    | none =>
      cases hlive : g.isLive n with
      | true =>
        rw [dispose_of_top hlive hp]
        exact ⟨g.remove [n], rfl, Nat.le_refl _, rfl⟩
      | false =>
        rw [dispose_of_none (scope?_of_dead hlive)]
        exact ⟨g, rfl, Nat.le_refl _, rfl⟩
  | disposeDescendants n =>
    dsimp only [Operation.apply, Operation.tells]
    cases hlive : g.isLive n with
    | true =>
      rw [disposeDescendants_eq hlive]
      refine ⟨(g.modify n fun s => { s with children := [] }).remove (g.children n), rfl, Nat.le_refl _, ?_⟩
      unfold tell
      rw [List.foldl_map]
    | false =>
      have hnone : g.children n = [] := by
        unfold children
        rw [scope?_of_dead hlive]
        rfl
      rw [disposeDescendants_of_none (scope?_of_dead hlive), hnone]
      exact ⟨g, rfl, Nat.le_refl _, rfl⟩
  | listen n name => exact ⟨(g.listen n name).2, rfl, Nat.le_succ _, rfl⟩
  | unlisten n number => exact ⟨g.unlisten n number, rfl, Nat.le_refl _, rfl⟩

theorem listenersMade_le_apply (g : ScopeGraph V) (op : Operation V) :
    g.listenersMade ≤ (op.apply g).listenersMade := by
  obtain ⟨g', -, hmade, happly⟩ := g.exists_apply_eq_tell op
  rw [happly, listenersMade_tell]
  exact hmade

theorem heardBy_apply (g : ScopeGraph V) (op : Operation V) (number : Nat) :
    (op.apply g).heardBy number = g.heardBy number ++
      (op.tells g).flatMap fun t => List.replicate (((op.apply g).listeners t.1).count number) t.2 := by
  obtain ⟨g', hheard, -, happly⟩ := g.exists_apply_eq_tell op
  have hbefore : g'.heardBy number = g.heardBy number := by
    unfold heardBy
    rw [hheard]
  have hlisteners : ∀ n, (g'.tell (op.tells g)).listeners n = g'.listeners n :=
    fun n => listeners_congr (scope?_tell g' _ n)
  rw [happly, heardBy_tell, hbefore]
  simp only [hlisteners]

end LiveNotes.ScopeGraph
