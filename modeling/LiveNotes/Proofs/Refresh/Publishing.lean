import LiveNotes.Proofs.Refresh.Session
import LiveNotes.Table

/-! What the root scope binds after some runs. Each run adds what it exports, and takes nothing away: a
name that no later run exports keeps the value of the last one that did. So after a run that went well the
root scope may bind more than that run exports. -/

namespace LiveNotes

variable {V : Type}

def LoadOutcome.exported? (o : LoadOutcome V) (name : String) : Option V :=
  (Table.ofList o.exports).get? name

/-- A load that fails gives no exports. -/
theorem Loader.exports_importBundle (l : Loader V) (d : Desk) (trigger : LoadTrigger) (entry : String)
    (b : Bundle) (t : Timeline) (h : (l.importBundle d trigger entry b t).1.ok = false) :
    (l.importBundle d trigger entry b t).1.exports = [] := by
  unfold Loader.importBundle at h ⊢
  dsimp only at h ⊢
  split at h
  · contradiction
  · rfl

theorem Loader.exports_of_not_ok (l : Loader V) (d : Desk) (trigger : LoadTrigger)
    (h : (l.load d trigger).1.ok = false) : (l.load d trigger).1.exports = [] := by
  unfold Loader.load at h ⊢
  dsimp only at h ⊢
  split at h
  · rfl
  · split at h
    · rfl
    · next b _ => exact l.exports_importBundle d trigger _ b _ h

namespace ScopeGraph

/-- What the root scope itself binds. -/
def rootTable? (g : ScopeGraph V) : Option (Table V) := (g.scope? rootScopeId).map (·.bindings)

/-- The value that the root scope itself binds a name to. -/
def rootValue? (g : ScopeGraph V) (name : String) : Option V := g.rootTable?.bind (·.get? name)

theorem rootTable?_setMany (g : ScopeGraph V) (more : List (String × V)) :
    (g.setMany rootScopeId more).rootTable? = g.rootTable?.map (·.extend more) := by
  unfold rootTable?
  rw [scope?_setMany, if_pos rfl, Option.map_map, Option.map_map]
  rfl

end ScopeGraph

namespace Refresh

open ScopeGraph

/-- Nothing else writes to the root scope. -/
def Sole : List (Event V) → Session V → Prop
  | [], _ => True
  | e :: events, s =>
    (∀ op, e = .operate op → (op.apply s.graph).rootTable? = s.graph.rootTable?) ∧
      Sole events (e.apply s)

/-- What runs have written to the root scope, first things first. -/
def Session.publications (s : Session V) : List (LoadOutcome V) := s.runs.filterMap (·.phase.written?)

/-- The value of a name once some outcomes were added: that of the last one which exports it. -/
def valueAfter (g : ScopeGraph V) (outcomes : List (LoadOutcome V)) (name : String) : Option V :=
  (outcomes.reverse.findSome? (·.exported? name)).or (g.rootValue? name)

namespace Session

variable {s : Session V} {k : Nat} {p : Phase V} {o : LoadOutcome V} {past : List (Run V)}
  {now : Option (Run V)} {older newer : List Request} {r : Run V} {e : Event V}

theorem publications_concat (past : List (Run V)) (r : Run V) :
    (past ++ [r]).filterMap (·.phase.written?) =
      past.filterMap (·.phase.written?) ++ r.phase.written?.toList := by
  rw [List.filterMap_append, List.filterMap_cons]
  cases r.phase.written? with
  | none => rfl
  | some o => rfl

theorem publications_launch (s : Session V) (trigger : LoadTrigger) :
    (s.launch trigger).publications = s.publications :=
  (publications_concat s.runs _).trans (List.append_nil _)

theorem publications_request (s : Session V) (trigger : LoadTrigger) (waiter : Option Waiter) :
    (s.request trigger waiter).publications = s.publications := by
  unfold request
  cases s.current with
  | none => exact publications_launch s trigger
  | some k => rfl

theorem publications_complete (s : Session V) (k : Nat) (o : LoadOutcome V) :
    (s.complete k o).publications = (s.enter k (.ended o)).publications := by
  unfold complete
  cases s.coordinator.pending with
  | none => rfl
  | some trigger => exact publications_launch _ trigger

/-- A run that takes a step has written what it had written before, or what it writes in that step. -/
theorem Orderly.publications_enter (h : s.Orderly past now older newer) (hp : s.phase? k = some p)
    (hopen : p.isEnded = false) {q : Phase V} {l : List (LoadOutcome V)}
    (hq : q.written?.toList = p.written?.toList ++ l) :
    (s.enter k q).publications = s.publications ++ l := by
  obtain ⟨rfl, r, rfl, rfl⟩ := h.eq_of_phase? hp hopen
  have hs : s.publications = past.filterMap (·.phase.written?) ++ r.phase.written?.toList := by
    unfold publications
    rw [h.runs]
    exact publications_concat past r
  rw [hs, List.append_assoc, ← hq]
  unfold publications
  rw [h.runs_enter]
  exact publications_concat past _

/-- A step adds to what runs have written just when it adds to what the root scope binds. -/
theorem Orderly.write_or_same (h : s.Orderly past now older newer) {s' : Session V}
    (hstep : Event.Step s e s') :
    (s'.publications = s.publications ∧
        (s'.graph = s.graph ∨ ∃ op, e = .operate op ∧ s'.graph = op.apply s.graph)) ∨
      ∃ o, s'.publications = s.publications ++ [o] ∧
        s'.graph = s.graph.setMany rootScopeId o.exports := by
  cases hstep with
  | none => exact .inl ⟨rfl, .inl rfl⟩
  | request trigger waiter =>
    exact .inl ⟨publications_request s trigger waiter, .inl (graph_request s trigger waiter)⟩
  | begin hp => exact .inl ⟨(h.publications_enter hp rfl rfl).trans (List.append_nil _), .inl rfl⟩
  | load hp => exact .inl ⟨(h.publications_enter hp rfl rfl).trans (List.append_nil _), .inl rfl⟩
  | write hp => exact .inr ⟨_, h.publications_enter hp rfl rfl, rfl⟩
  | announce hp => exact .inl ⟨(h.publications_enter hp rfl rfl).trans (List.append_nil _), .inl rfl⟩
  | complete hp =>
    refine .inl ⟨?_, .inl (graph_complete s _ _)⟩
    rw [publications_complete, h.publications_enter (l := []) hp rfl rfl, List.append_nil]
  | operate op => exact .inl ⟨rfl, .inr ⟨op, rfl, rfl⟩⟩

end Session

open Session

variable {g : ScopeGraph V} {s : Session V} {past : List (Run V)} {now : Option (Run V)}
  {older newer : List Request}

theorem valueAfter_append (g : ScopeGraph V) (outcomes : List (LoadOutcome V)) (o : LoadOutcome V)
    (name : String) :
    valueAfter g (outcomes ++ [o]) name = (o.exported? name).or (valueAfter g outcomes name) := by
  unfold valueAfter
  rw [List.reverse_append, List.findSome?_append, Option.or_assoc, List.reverse_singleton,
    List.findSome?_cons, List.findSome?_nil]
  cases o.exported? name with
  | none => rfl
  | some v => rfl

theorem isSome_valueAfter (g : ScopeGraph V) (outcomes : List (LoadOutcome V)) (name : String) :
    (valueAfter g outcomes name).isSome = true ↔
      (g.rootValue? name).isSome = true ∨ ∃ o ∈ outcomes, (o.exported? name).isSome = true := by
  unfold valueAfter
  rw [Option.isSome_or, Bool.or_eq_true, List.findSome?_isSome_iff, or_comm]
  simp only [List.mem_reverse]

/-- The root scope binds what the runs have written, on top of what it bound at the start. -/
structure Bound (g : ScopeGraph V) (s : Session V) : Prop where
  live : s.graph.rootTable?.isSome = true
  value : ∀ name, s.graph.rootValue? name = valueAfter g s.publications name

theorem Bound.apply (hb : Bound g s) (h : s.Orderly past now older newer) {e : Event V}
    (hsole : ∀ op, e = .operate op → (op.apply s.graph).rootTable? = s.graph.rootTable?) :
    Bound g (e.apply s) := by
  rcases h.write_or_same (Event.step_apply e s) with ⟨hsame, hgraph⟩ | ⟨o, hmore, hgraph⟩
  · -- Nothing is written, and others leave the root scope alone.
    have htable : (e.apply s).graph.rootTable? = s.graph.rootTable? := by
      rcases hgraph with hgraph | ⟨op, rfl, hgraph⟩
      · rw [hgraph]
      · rw [hgraph, hsole op rfl]
    refine ⟨htable ▸ hb.live, fun name => ?_⟩
    rw [hsame, ← hb.value name]
    exact congrArg (·.bind (·.get? name)) htable
  · obtain ⟨t, ht⟩ := Option.isSome_iff_exists.1 hb.live
    have htable : (e.apply s).graph.rootTable? = some (t.extend o.exports) := by
      rw [hgraph, rootTable?_setMany, ht]
      rfl
    refine ⟨by rw [htable]; rfl, fun name => ?_⟩
    have hold : s.graph.rootValue? name = t.get? name := congrArg (·.bind (·.get? name)) ht
    rw [hmore, valueAfter_append, ← hb.value name, hold]
    exact (congrArg (·.bind (·.get? name)) htable).trans (Table.get?_extend t o.exports name)

theorem Bound.run (hb : Bound g s) (h : s.Orderly past now older newer) {events : List (Event V)}
    (hsole : Sole events s) : Bound g (Event.run events s) := by
  induction events generalizing s past now older newer with
  | nil => exact hb
  | cons e events ih =>
    obtain ⟨_, _, _, _, he⟩ := h.step (Event.step_apply e s)
    exact ih (hb.apply h hsole.1) he hsole.2

theorem sole_append (events more : List (Event V)) (s : Session V) :
    Sole (events ++ more) s ↔ Sole events s ∧ Sole more (Event.run events s) := by
  induction events generalizing s with
  | nil => exact iff_of_eq (true_and _).symm
  | cons e events ih =>
    rw [List.cons_append, Sole, ih, Sole, and_assoc]
    rfl

theorem sole_of_runs {events : List (Event V)} (h : ∀ e ∈ events, ∀ op, e ≠ .operate op)
    (s : Session V) : Sole events s := by
  induction events generalizing s with
  | nil => trivial
  | cons e events ih =>
    refine ⟨fun op hop => absurd hop (h e List.mem_cons_self op), ih ?_ _⟩
    exact fun e' he' => h e' (List.mem_cons_of_mem _ he')

/-- After a run that went well the root scope binds just what that run exports, unless a name that it
bound at the start, or that an earlier run exported, is not exported any more. -/
theorem root_replaced_iff (hroot : g.isLive rootScopeId = true) {before after : List (Event V)} {k : Nat}
    {o : LoadOutcome V} (hsole : Sole (before ++ .write k :: after) (start g))
    (hk : (Event.run before (start g)).phase? k = some (.loaded o))
    (hlater : (Event.run (before ++ .write k :: after) (start g)).publications =
      ((Event.write k).apply (Event.run before (start g))).publications) :
    let earlier := Event.run before (start g)
    let later := Event.run (before ++ .write k :: after) (start g)
    (o.ok = true → ((∀ name, later.graph.rootValue? name = o.exported? name) ↔
        ∀ name, (g.rootValue? name).isSome = true ∨
          (∃ o' ∈ earlier.publications, (o'.exported? name).isSome = true) →
            (o.exported? name).isSome = true)) ∧
      (o.ok = false → ((∀ name, later.graph.rootValue? name = earlier.graph.rootValue? name) ↔
        ∀ name v, o.exported? name = some v → earlier.graph.rootValue? name = some v)) ∧
      ∀ (l : Loader V) d trigger, (l.load d trigger).1.ok = false →
        ∀ name, (l.load d trigger).1.exported? name = none := by
  intro earlier later
  have hstart : Bound g (start g) := by
    refine ⟨?_, fun name => rfl⟩
    change ((g.scope? rootScopeId).map (·.bindings)).isSome = true
    rwa [Option.isSome_map]
  obtain ⟨hbefore, hafter⟩ := (sole_append before _ _).1 hsole
  have hearlier : Bound g earlier := hstart.run (Orderly.start g) hbefore
  have hpublications : later.publications = earlier.publications ++ [o] := by
    obtain ⟨past, now, older, newer, h⟩ := (Orderly.start g).run before
    rw [hlater]
    simp only [Event.apply, hk]
    exact h.publications_enter hk rfl rfl
  have hvalue : ∀ name, later.graph.rootValue? name =
      (o.exported? name).or (earlier.graph.rootValue? name) := by
    intro name
    have hbound : Bound g later := hstart.run (Orderly.start g) hsole
    rw [hbound.value, hpublications, valueAfter_append, ← hearlier.value]
  refine ⟨fun _ => forall_congr' fun name => ?_, fun _ => forall_congr' fun name => ?_, ?_⟩
  · -- What was bound before comes through just where the run exports nothing.
    rw [← isSome_valueAfter, ← hearlier.value, hvalue]
    cases o.exported? name with
    | none => cases earlier.graph.rootValue? name with
      | none => simp
      | some v => simp
    | some v => simp
  · rw [hvalue]
    cases o.exported? name with
    | none => simp
    | some v => simp [eq_comm]
  · intro l d trigger hfailed name
    unfold LoadOutcome.exported?
    rw [l.exports_of_not_ok d trigger hfailed]
    rfl

def reloaded : LoadOutcome String := ⟨[("A", "3")], true⟩

/-- A second load, which gives less than the first one, is about to be written. -/
def reloading : List (Event String) :=
  .request .startup none :: Event.finish 0 ⟨[("A", "1"), ("B", "2")], true⟩ ++
    [.request .refresh none, .begin 1, .load 1 reloaded]

theorem sole_reloading : Sole (reloading ++ [.write 1, .announce 1, .complete 1]) (start .new) := by
  refine sole_of_runs ?_ _
  rintro e he op rfl
  simp [reloading, Event.finish, Event.land] at he

theorem root_replaced_iff_reloading :
    let earlier := Event.run reloading (start .new)
    let later := Event.run (reloading ++ [.write 1, .announce 1, .complete 1]) (start .new)
    (ScopeGraph.new : ScopeGraph String).isLive rootScopeId = true ∧
      Sole (reloading ++ [.write 1, .announce 1, .complete 1]) (start .new) ∧
      earlier.phase? 1 = some (.loaded reloaded) ∧
      later.publications = ((Event.write 1).apply earlier).publications ∧
      ((∀ name, later.graph.rootValue? name = reloaded.exported? name) ↔
        ∀ name, ((ScopeGraph.new : ScopeGraph String).rootValue? name).isSome = true ∨
          (∃ o ∈ earlier.publications, (o.exported? name).isSome = true) →
            (reloaded.exported? name).isSome = true) := by
  have hroot : (ScopeGraph.new : ScopeGraph String).isLive rootScopeId = true := by decide +kernel
  exact ⟨hroot, sole_reloading, rfl, rfl, (root_replaced_iff hroot sole_reloading rfl rfl).1 rfl⟩

/-- The second load went well and its run is over. What only the first one exported is still there. -/
theorem root_keeps_removed :
    let later := Event.run (reloading ++ [.write 1, .announce 1, .complete 1]) (start .new)
    Sole (reloading ++ [.write 1, .announce 1, .complete 1]) (start .new) ∧
      later.phase? 1 = some (.ended reloaded) ∧ reloaded.ok = true ∧
      later.graph.rootValue? "B" = some "2" ∧ reloaded.exported? "B" = none := by
  refine ⟨sole_reloading, rfl, rfl, ?_, ?_⟩
  · decide +kernel
  · decide +kernel

end Refresh

end LiveNotes
