import LiveNotes.Proofs.Scope.Ancestry
import LiveNotes.Proofs.Scope.Links
import LiveNotes.Proofs.Scope.Telling

/-! What a listener hears of its scope. Every listener has a number of its own, so that it can be told what
one has heard since it came: all events at its scope and no others. By these alone it can follow the list of
children, and knows how often the scope was bound. -/

namespace LiveNotes

/-- The list of children after an event, from the one before. -/
def ScopeEvent.replay (ids : List String) : ScopeEvent → List String
  | .bindingsChanged => ids
  | .childAttached id => ids ++ [id]
  | .childDetached id => ids.erase id

namespace ScopeGraph

variable {V : Type} {g : ScopeGraph V} {id n : String} {number : Nat}

def eventsAt (id : String) (told : List (String × ScopeEvent)) : List ScopeEvent :=
  told.filterMap fun t => if t.1 = id then some t.2 else none

/-- The events at a scope that operations tell of, one after the other. -/
def Operation.told (id : String) : List (Operation V) → ScopeGraph V → List ScopeEvent
  | [], _ => []
  | op :: ops, g => eventsAt id (op.tells g) ++ told id ops (op.apply g)

/-- An operation binds names of a scope, or none any more. -/
def Operation.rebinds (id : String) : Operation V → Bool
  | .setMany n _ => n == id
  | .reset n => n == id
  | _ => false

/-- A listener is registered at a scope, once and nowhere else. -/
def Registered (g : ScopeGraph V) (id : String) (number : Nat) : Prop :=
  ∀ n, (g.listeners n).count number = if n = id then 1 else 0

/-- No one knows of a listener whose number has not come yet. -/
def Numbered (g : ScopeGraph V) : Prop :=
  ∀ number, g.listenersMade < number → g.heardBy number = [] ∧ ∀ n, (g.listeners n).count number = 0

/-! ### Numbers -/

theorem numbered_new : (new : ScopeGraph V).Numbered := by
  intro number _
  refine ⟨rfl, fun n => ?_⟩
  unfold listeners scope? new
  rw [Table.get?_cons]
  split
  · rfl
  · rfl

theorem Numbered.apply (h : g.Numbered) (op : Operation V) : (op.apply g).Numbered := by
  intro number hnumber
  obtain ⟨hheard, hnone⟩ := h number (Nat.lt_of_le_of_lt (g.listenersMade_le_apply op) hnumber)
  have hnone' : ∀ n, ((op.apply g).listeners n).count number = 0 := by
    intro n
    rcases count_listeners_apply (n := n) op (Or.inr hnumber) with hsame | ⟨hzero, -⟩
    · exact hsame.trans (hnone n)
    · exact hzero
  refine ⟨?_, hnone'⟩
  rw [heardBy_apply, hheard]
  simp [hnone']

theorem Reachable.numbered (h : g.Reachable) : g.Numbered := by
  induction h with
  | new => exact numbered_new
  | apply op _ ih => exact ih.apply op

theorem Numbered.registered_listen (h : g.Numbered) (hid : g.isLive id = true) (name : Option String) :
    (g.listen id name).2.Registered id (g.listen id name).1 := by
  intro n
  have hnone := (h (g.listenersMade + 1) (Nat.lt_succ_self _)).2 n
  rw [listeners_listen]
  by_cases hn : n = id
  · have hboth : n = id ∧ g.isLive n = true := ⟨hn, hn ▸ hid⟩
    rw [if_pos hboth, if_pos hn, List.count_append]
    show (g.listeners n).count (g.listenersMade + 1) + [g.listenersMade + 1].count (g.listenersMade + 1) = 1
    rw [hnone, List.count_singleton_self]
  · rw [if_neg fun hand => hn hand.1, if_neg hn]
    exact hnone

theorem Registered.apply (h : g.Registered id number) (hnumber : number ≤ g.listenersMade)
    (op : Operation V) (hlive : (op.apply g).isLive id = true) (hkept : op ≠ .unlisten id number) :
    (op.apply g).Registered id number := by
  intro n
  rcases count_listeners_apply (n := n) op (Or.inl hnumber) with hsame | ⟨hzero, hgone⟩
  · exact hsame.trans (h n)
  · have hn : n ≠ id := by
      rintro rfl
      rcases hgone with hdead | hoff
      · rw [hdead] at hlive
        contradiction
      · exact hkept hoff
    rw [if_neg hn]
    exact hzero

/-! ### The events at a scope -/

theorem eventsAt_nil (id : String) : eventsAt id [] = [] := rfl

theorem eventsAt_cons (id : String) (t : String × ScopeEvent) (told : List (String × ScopeEvent)) :
    eventsAt id (t :: told) = (if t.1 = id then [t.2] else []) ++ eventsAt id told := by
  unfold eventsAt
  rw [List.filterMap_cons]
  by_cases ht : t.1 = id
  · rw [if_pos ht, if_pos ht]
    rfl
  · rw [if_neg ht, if_neg ht]
    rfl

/-- A listener hears the events at its scope and no others. -/
theorem Registered.heard_eq (h : g.Registered id number) (told : List (String × ScopeEvent)) :
    (told.flatMap fun t => List.replicate ((g.listeners t.1).count number) t.2) = eventsAt id told := by
  induction told with
  | nil => rfl
  | cons t ts ih =>
    rw [List.flatMap_cons, eventsAt_cons, ih, h t.1]
    split
    · rfl
    · rfl

theorem eventsAt_map_self (id : String) (event : String → ScopeEvent) (ids : List String) :
    eventsAt id (ids.map (id, event ·)) = ids.map event := by
  induction ids with
  | nil => rfl
  | cons c ids ih =>
    rw [List.map_cons, eventsAt_cons, if_pos rfl, ih]
    rfl

theorem eventsAt_map_of_ne (hne : n ≠ id) (event : String → ScopeEvent) (ids : List String) :
    eventsAt id (ids.map (n, event ·)) = [] := by
  induction ids with
  | nil => rfl
  | cons c ids ih =>
    rw [List.map_cons, eventsAt_cons, if_neg hne, ih]
    rfl

theorem replay_detached (ids : List String) :
    (ids.map ScopeEvent.childDetached).foldl ScopeEvent.replay ids = [] := by
  induction ids with
  | nil => rfl
  | cons c ids ih =>
    rw [List.map_cons, List.foldl_cons, ScopeEvent.replay, List.erase_cons_head]
    exact ih

theorem replay_of_child (h : g.Linked) (p c : String) (hid : g.isLive id = true) :
    (eventsAt id ((Operation.child p c).tells g)).foldl ScopeEvent.replay (g.children id) =
      (g.child p c).children id := by
  dsimp only [Operation.tells]
  rcases g.child_cases p c with ⟨hnothing, heq⟩ | ⟨⟨hne, hp, hc⟩, heq⟩ | ⟨⟨hne, hp, -, hup⟩, heq⟩
  · rw [heq, if_pos (by simpa [or_assoc] using hnothing)]
    rfl
  · have hup : g.parent? c = none := congrArg (·.bind (·.parent)) hc
    have hidc : id ≠ c := by
      rintro rfl
      rw [isLive_eq, hc] at hid
      contradiction
    have hborn : (g.child p c).children id = if id = p then g.children id ++ [c] else g.children id := by
      rw [heq]
      exact (children_born g hne hp id).trans (if_neg hidc)
    rw [hborn, if_neg (by simp [hne, hp, hup]), hup]
    by_cases hidp : id = p
    · rw [if_pos hidp]
      simp [eventsAt, hidp, ScopeEvent.replay]
    · rw [if_neg hidp]
      simp [eventsAt, Ne.symm hidp]
  · have hmoved : (g.child p c).children id =
        (if g.parent? c = some id then (g.children id).erase c else g.children id) ++
          if id = p then [c] else [] := by
      rw [heq, (h.nodup id).erase_eq_filter]
      exact children_move g (g.parent? c) hp id
    rw [hmoved, if_neg (by simp [hne, hp, hup])]
    -- The old parent and the new one hear of the move, the one of a scope that goes and the other of one
    -- that comes.
    have hcame : ∀ l : List String, (eventsAt id [(p, .childAttached c)]).foldl ScopeEvent.replay l =
        l ++ if id = p then [c] else [] := by
      intro l
      rw [eventsAt_cons, eventsAt_nil]
      by_cases hidp : id = p
      · rw [if_pos hidp, if_pos hidp.symm]
        rfl
      · rw [if_neg hidp, if_neg (Ne.symm hidp), List.append_nil, List.append_nil, List.foldl_nil]
    cases g.parent? c with
    | none => exact hcame (g.children id)
    | some o =>
      show (eventsAt id ((o, .childDetached c) :: [(p, .childAttached c)])).foldl _ _ = _
      rw [eventsAt_cons, List.foldl_append, hcame]
      by_cases hido : o = id
      · rw [if_pos hido, if_pos (congrArg some hido)]
        rfl
      · rw [if_neg hido, if_neg fun heq => hido (Option.some.inj heq)]
        rfl

theorem eventsAt_rebind (g : ScopeGraph V) (id n : String) :
    eventsAt id (if g.isLive n then [(n, .bindingsChanged)] else []) =
      if g.isLive n = true ∧ n = id then [.bindingsChanged] else [] := by
  split
  · next hn =>
    rw [eventsAt_cons, eventsAt_nil, List.append_nil]
    by_cases heq : n = id
    · rw [if_pos heq, if_pos ⟨hn, heq⟩]
    · rw [if_neg heq, if_neg fun hand => heq hand.2]
  · next hn => rw [if_neg fun hand => hn hand.1, eventsAt_nil]

theorem replay_of_dispose (h : g.Linked) (n : String) (hlive : (g.dispose n).isLive id = true) :
    (eventsAt id ((Operation.dispose n).tells g)).foldl ScopeEvent.replay (g.children id) =
      (g.dispose n).children id := by
  dsimp only [Operation.tells]
  cases hn : g.scope? n with
  | none =>
    have hup : g.parent? n = none := congrArg (·.bind (·.parent)) hn
    rw [hup, dispose_of_none hn]
    rfl
  | some s =>
    have hsame := scope?_dispose hn id
    rw [isLive_eq, hsame] at hlive
    rw [children_congr hsame, children_congr (scope?_remove_of_isLive hlive), parent?_eq_of_scope? hn]
    cases s.parent with
    | none => rfl
    | some p =>
      show (eventsAt id [(p, .childDetached n)]).foldl _ _ = (g.dropChild p n).children id
      rw [children_dropChild, ← (h.nodup id).erase_eq_filter, eventsAt_cons]
      by_cases hp : p = id
      · rw [if_pos hp, if_pos hp.symm]
        rfl
      · rw [if_neg hp, if_neg (Ne.symm hp)]
        rfl

theorem replay_of_disposeDescendants (n : String) (hlive : (g.disposeDescendants n).isLive id = true) :
    (eventsAt id ((Operation.disposeDescendants n).tells g)).foldl ScopeEvent.replay (g.children id) =
      (g.disposeDescendants n).children id := by
  dsimp only [Operation.tells]
  cases hn : g.scope? n with
  | none =>
    have hnone : g.children n = [] := by
      unfold children
      rw [hn]
      rfl
    rw [hnone, disposeDescendants_of_none hn]
    rfl
  | some s =>
    have hsame := scope?_disposeDescendants hn id
    rw [isLive_eq, hsame] at hlive
    rw [children_congr hsame, children_congr (scope?_remove_of_isLive hlive)]
    by_cases hid : n = id
    · subst hid
      have hcleared : (g.modify n fun s => { s with children := [] }).children n = [] := by
        unfold children
        rw [scope?_modify_self, hn]
        rfl
      rw [hcleared, eventsAt_map_self, replay_detached]
    · rw [eventsAt_map_of_ne hid, children_congr (scope?_modify_of_ne (Ne.symm hid))]
      rfl

/-- What an operation tells of at a scope makes the old list of children the new one. -/
theorem Linked.replay_tells (h : g.Linked) (op : Operation V) (hid : g.isLive id = true)
    (hlive : (op.apply g).isLive id = true) :
    (eventsAt id (op.tells g)).foldl ScopeEvent.replay (g.children id) = (op.apply g).children id := by
  have hrebound : ∀ n, (eventsAt id (if g.isLive n then [(n, .bindingsChanged)] else [])).foldl
      ScopeEvent.replay (g.children id) = g.children id := by
    intro n
    rw [eventsAt_rebind]
    split
    · rfl
    · rfl
  cases op with
  | child p c => exact replay_of_child h p c hid
  | setMany n bindings => exact (hrebound n).trans (children_apply (by exact trivial) id).symm
  | reset n => exact (hrebound n).trans (children_apply (by exact trivial) id).symm
  | dispose n => exact replay_of_dispose h n hlive
  | disposeDescendants n => exact replay_of_disposeDescendants n hlive
  | _ => exact (children_apply (by exact trivial) id).symm

theorem count_eventsAt_of_ne {told : List (String × ScopeEvent)}
    (h : ∀ t ∈ told, t.2 ≠ .bindingsChanged) : (eventsAt id told).count .bindingsChanged = 0 := by
  rw [List.count_eq_zero]
  intro hmem
  obtain ⟨t, ht, heq⟩ := List.mem_filterMap.1 hmem
  split at heq
  · exact h t ht (Option.some.inj heq)
  · contradiction

/-- Bindings are told of once by what binds names of the scope, and by nothing else. -/
theorem count_tells (op : Operation V) (hid : g.isLive id = true) :
    (eventsAt id (op.tells g)).count .bindingsChanged = if op.rebinds id then 1 else 0 := by
  have hrebound : ∀ n, (eventsAt id (if g.isLive n then [(n, .bindingsChanged)] else [])).count
      .bindingsChanged = if n == id then 1 else 0 := by
    intro n
    rw [eventsAt_rebind]
    by_cases hn : n = id
    · simp [hn, hid]
    · simp [hn]
  cases op with
  | child p c =>
    refine count_eventsAt_of_ne ?_
    intro t ht
    dsimp only [Operation.tells] at ht
    split at ht
    · contradiction
    · rcases List.mem_append.1 ht with hgoes | hcomes
      · obtain ⟨o, -, rfl⟩ := List.mem_map.1 hgoes
        exact ScopeEvent.noConfusion
      · rw [List.mem_singleton.1 hcomes]
        exact ScopeEvent.noConfusion
  | setMany n bindings => exact hrebound n
  | reset n => exact hrebound n
  | dispose n =>
    refine count_eventsAt_of_ne ?_
    intro t ht
    obtain ⟨p, -, rfl⟩ := List.mem_map.1 ht
    exact ScopeEvent.noConfusion
  | disposeDescendants n =>
    refine count_eventsAt_of_ne ?_
    intro t ht
    obtain ⟨c, -, rfl⟩ := List.mem_map.1 ht
    exact ScopeEvent.noConfusion
  | _ => rfl

/-! ### Runs -/

theorem heardBy_run (ops : List (Operation V)) (h : g.Registered id number) (hnumber : number ≤ g.listenersMade)
    (hstay : Operation.Throughout (·.isLive id = true) ops g) (hkept : .unlisten id number ∉ ops) :
    (Operation.run ops g).heardBy number = g.heardBy number ++ Operation.told id ops g := by
  induction ops generalizing g with
  | nil => exact (List.append_nil _).symm
  | cons op ops ih =>
    obtain ⟨hop, hrest⟩ := not_or.1 fun hmem => hkept (List.mem_cons.2 hmem)
    -- Events are told after the change, so it is the listeners of then that hear of them.
    have hnext : (op.apply g).Registered id number := h.apply hnumber op hstay.2.head (Ne.symm hop)
    have hnumber' := Nat.le_trans hnumber (g.listenersMade_le_apply op)
    show (Operation.run ops (op.apply g)).heardBy number = _
    rw [ih hnext hnumber' hstay.2 hrest, heardBy_apply, hnext.heard_eq, List.append_assoc]
    rfl

theorem Linked.replay_told (h : g.Linked) (ops : List (Operation V))
    (hstay : Operation.Throughout (·.isLive id = true) ops g) :
    (Operation.told id ops g).foldl ScopeEvent.replay (g.children id) = (Operation.run ops g).children id := by
  induction ops generalizing g with
  | nil => rfl
  | cons op ops ih =>
    show (eventsAt id (op.tells g) ++ Operation.told id ops (op.apply g)).foldl _ _ =
      (Operation.run ops (op.apply g)).children id
    rw [List.foldl_append, h.replay_tells op hstay.1 hstay.2.head, ih (h.apply op) hstay.2]

theorem count_told (ops : List (Operation V)) (hstay : Operation.Throughout (·.isLive id = true) ops g) :
    (Operation.told id ops g).count .bindingsChanged = ops.countP (·.rebinds id) := by
  induction ops generalizing g with
  | nil => rfl
  | cons op ops ih =>
    show (eventsAt id (op.tells g) ++ Operation.told id ops (op.apply g)).count _ = _
    rw [List.count_append, count_tells op hstay.1, ih hstay.2, List.countP_cons, Nat.add_comm]

/-- Who listens to a scope while it is live can tell its list of children at any time by the events heard
since, in order, from the list at the beginning. And of bindings it hears once for every time that the scope
is bound anew. -/
theorem replay_heardBy (h : g.Reachable) (id : String) (name : Option String) (ops : List (Operation V))
    (hstay : Operation.Throughout (·.isLive id = true) ops (g.listen id name).2)
    (hkept : .unlisten id (g.listen id name).1 ∉ ops) :
    (((Operation.run ops (g.listen id name).2).heardBy (g.listen id name).1).foldl ScopeEvent.replay
        (g.children id) = (Operation.run ops (g.listen id name).2).children id) ∧
      ((Operation.run ops (g.listen id name).2).heardBy (g.listen id name).1).count .bindingsChanged =
        ops.countP (·.rebinds id) := by
  have hlistened : (g.listen id name).2.Linked := h.linked.apply (.listen id name)
  have hlive : g.isLive id = true := (isLive_listen g id name id).symm.trans hstay.head
  have hregistered := h.numbered.registered_listen hlive name
  have hnothing : (g.listen id name).2.heardBy (g.listen id name).1 = [] :=
    (h.numbered (g.listenersMade + 1) (Nat.lt_succ_self _)).1
  have hheard : (Operation.run ops (g.listen id name).2).heardBy (g.listen id name).1 =
      Operation.told id ops (g.listen id name).2 := by
    rw [heardBy_run ops hregistered (Nat.le_refl _) hstay hkept, hnothing, List.nil_append]
  have hchildren : (g.listen id name).2.children id = g.children id := by
    refine children_modify ?_ id
    exact fun _ => rfl
  rw [hheard]
  refine ⟨?_, count_told ops hstay⟩
  rw [← hchildren]
  exact hlistened.replay_told ops hstay

def paged : ScopeGraph Nat := Operation.run [.child rootScopeId "page", .child "page" "0"] new

def changes : List (Operation Nat) :=
  [.child "page" "1", .setMany "page" [("x", 1)], .setMany "0" [("y", 2)], .child rootScopeId "0",
    .reset "page", .child "page" "0"]

def changed : ScopeGraph Nat := Operation.run changes (paged.listen "page" none).2

def emptied : ScopeGraph Nat := changed.modify "page" fun s => { s with children := [] }

theorem disposeDescendants_changed : changed.disposeDescendants "page" =
    (notify { emptied with scopes := (emptied.scopes.erase "1").erase "0" } "page"
      (.childDetached "1")).notify "page" (.childDetached "0") := by
  have hpage : changed.isLive "page" = true ∧ changed.children "page" = ["1", "0"] := by decide +kernel
  have hfirst : emptied.isLive "1" = true ∧ emptied.children "1" = [] := by decide +kernel
  have hsecond : isLive { emptied with scopes := emptied.scopes.erase "1" } "0" = true ∧
      children { emptied with scopes := emptied.scopes.erase "1" } "0" = [] := by decide +kernel
  rw [disposeDescendants_eq hpage.1, hpage.2]
  show ((remove emptied ["1", "0"]).notify _ _).notify _ _ = _
  rw [remove_cons hfirst.1, hfirst.2, List.nil_append, remove_cons hsecond.1, hsecond.2, List.nil_append,
    remove_nil]

theorem replay_heardBy_paged :
    Operation.Throughout (·.isLive "page" = true) (changes ++ [.disposeDescendants "page"])
        (paged.listen "page" none).2 ∧
      Operation.unlisten "page" (paged.listen "page" none).1 ∉ changes ++ [.disposeDescendants "page"] ∧
      (changed.disposeDescendants "page").heardBy 1 =
        [.childAttached "1", .bindingsChanged, .childDetached "0", .bindingsChanged, .childAttached "0",
          .childDetached "1", .childDetached "0"] ∧
      ((changed.disposeDescendants "page").heardBy 1).foldl ScopeEvent.replay (paged.children "page") =
        (changed.disposeDescendants "page").children "page" := by
  have hend : (changed.disposeDescendants "page").isLive "page" = true := by
    rw [disposeDescendants_changed]
    decide +kernel
  have hstay : Operation.Throughout (·.isLive "page" = true) (changes ++ [.disposeDescendants "page"])
      (paged.listen "page" none).2 :=
    ⟨by decide +kernel, by decide +kernel, by decide +kernel, by decide +kernel, by decide +kernel,
      by decide +kernel, by decide +kernel, hend⟩
  have hkept : Operation.unlisten "page" (paged.listen "page" none).1 ∉
      changes ++ [.disposeDescendants "page"] := by decide
  have hpaged : paged.Reachable := Reachable.new.run _
  refine ⟨hstay, hkept, ?_, (replay_heardBy hpaged "page" none _ hstay hkept).1⟩
  rw [disposeDescendants_changed]
  decide +kernel

end ScopeGraph

end LiveNotes
