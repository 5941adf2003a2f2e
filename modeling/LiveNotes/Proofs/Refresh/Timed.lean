import LiveNotes.Fragment.Job
import LiveNotes.Proofs.Refresh.Coalescing
import Mathlib.Data.List.Basic

/-! Refreshing in time, step by step, does what a session of runs and requests does. What it has told
those who wait are the answers that their requests get there. -/

namespace LiveNotes.Refresh

open Session

variable {V : Type} {source : LoadSource V} {a b : AutoRefresh V} {s : Session V}
  {past : List (Run V)} {now : Option (Run V)} {older newer : List Request} {r : Run V}

/-- What a request has been told, when the given runs are all there are. -/
def toldBy (runs : List (Run V)) (q : Request) : Option (Nat × Bool) :=
  (runs[q.run]?).bind fun r => r.phase.result?.bind fun o => q.waiter.map fun w => (w.number, o.ok)

theorem toldBy_append {runs l : List (Run V)} {q : Request} (h : q.run < runs.length) :
    toldBy (runs ++ l) q = toldBy runs q := by
  unfold toldBy
  rw [List.getElem?_append_left h]

theorem toldBy_eq (s : Session V) (q : Request) :
    toldBy s.runs q = (s.answer? q).bind fun ok => q.waiter.map fun w => (w.number, ok) := by
  unfold toldBy answer? phase?
  cases s.runs[q.run]? with
  | none => rfl
  | some r =>
    rw [Option.bind_some, Option.map_some, Option.bind_some]
    cases r.phase.result? with
    | none => rfl
    | some o => rfl

structure Follows (a : AutoRefresh V) (s : Session V) (past : List (Run V)) (now : Option (Run V))
    (older newer : List Request) : Prop where
  order : s.Orderly past now older newer
  coordinator : s.coordinator = a.coordinator
  graph : s.graph = a.graph
  phase : ∀ r ∈ now, r.phase = if a.load.isSome then .loading else .asked
  idle : now = none → a.load = none
  calls : a.calls = past.map (·.trigger) ++ (now.toList.filter fun _ => a.load.isSome).map (·.trigger)
  waiters : a.waiters = newer.filterMap (·.waiter)
  told : a.told = older.filterMap (toldBy past)

namespace Follows

theorem new (settings : Settings) :
    Follows (AutoRefresh.new settings : AutoRefresh V) (start .new) [] none [] [] where
  order := .start _
  coordinator := rfl
  graph := rfl
  phase := by simp
  idle _ := rfl
  calls := rfl
  waiters := rfl
  told := rfl

/-- Time, settings and timers do not matter to the session. -/
theorem congr (h : Follows a s past now older newer) (hcoordinator : b.coordinator = a.coordinator)
    (hgraph : b.graph = a.graph) (hload : b.load = a.load) (hcalls : b.calls = a.calls)
    (hwaiters : b.waiters = a.waiters) (htold : b.told = a.told) : Follows b s past now older newer := by
  obtain ⟨h₁, h₂, h₃, h₄, h₅, h₆, h₇, h₈⟩ := h
  rw [← hcoordinator] at h₂
  rw [← hgraph] at h₃
  rw [← hload] at h₄ h₅ h₆
  exact ⟨h₁, h₂, h₃, h₄, h₅, hcalls.trans h₆, hwaiters.trans h₇, htold.trans h₈⟩

theorem request (h : Follows a s past now older newer) (trigger : LoadTrigger) (waiter : Option Waiter) :
    ∃ now newer, Follows (a.request trigger waiter) (s.request trigger waiter) past now older newer := by
  have hcoordinator : (s.request trigger waiter).coordinator = a.coordinator.request trigger := by
    rw [coordinator_request, h.coordinator]
  have hgraph : (s.request trigger waiter).graph = a.graph := by
    rw [graph_request, h.graph]
  cases now with
  | none =>
    -- No run is in flight, so that nothing loads and nobody waits.
    have hload : a.load = none := h.idle rfl
    have hcalls : a.calls = past.map (·.trigger) := h.calls.trans (List.append_nil _)
    have hwaiters : a.waiters = [] := by
      rw [h.waiters, h.order.idle rfl]
      rfl
    refine ⟨_, _, h.order.request_none trigger waiter, hcoordinator, hgraph, ?_, by simp, ?_, ?_, h.told⟩
    · intro r hr
      rw [← Option.some.inj hr]
      change Phase.asked = if a.load.isSome then .loading else .asked
      rw [hload]
      rfl
    · change a.calls = _ ++ List.map _ (List.filter (fun _ => a.load.isSome) _)
      rw [hcalls, hload]
      exact (List.append_nil _).symm
    · change a.waiters ++ waiter.toList = _
      rw [hwaiters]
      cases waiter with
      | none => rfl
      | some w => rfl
  | some r =>
    refine ⟨_, _, h.order.request_some trigger waiter, hcoordinator, hgraph, h.phase, h.idle, h.calls, ?_,
      h.told⟩
    change a.waiters ++ waiter.toList = _
    rw [h.waiters, List.filterMap_append]
    cases waiter with
    | none => rfl
    | some w => rfl

theorem beginLoad (h : Follows a s past (some r) older newer) (hload : a.load = none)
    (source : LoadSource V) {trigger : LoadTrigger} (htrigger : a.coordinator.inFlight = some trigger) :
    Follows (a.beginLoad source trigger) ((Event.begin past.length).apply s) past
      (some { r with phase := .loading }) older newer := by
  have hasked : r.phase = .asked := by
    rw [h.phase r rfl, hload]
    rfl
  have hr : r.trigger = trigger := by
    have hinFlight := h.order.inFlight
    rw [h.coordinator, htrigger] at hinFlight
    exact (Option.some.inj hinFlight).symm
  have hphase : s.phase? past.length = some .asked := by
    rw [h.order.phase?_last, hasked]
  have hrenders : s.coordinator.renders = past.length + (Phase.asked (V := V)).isAnnounced.toNat := by
    rw [h.order.renders, Option.any_some, hasked]
  have hcalls : a.calls = past.map (·.trigger) := by
    rw [h.calls, hload]
    exact List.append_nil _
  simp only [Event.apply, hphase]
  refine ⟨h.order.enter s.graph rfl hrenders, h.coordinator, h.graph, ?_, by simp, ?_, h.waiters, h.told⟩
  · intro r' hr'
    rw [← Option.some.inj hr']
    rfl
  · change a.calls ++ [trigger] = _
    rw [hcalls, ← hr]
    rfl

theorem finishLoad (h : Follows a s past (some r) older newer) (hload : a.load.isSome = true)
    (o : LoadOutcome V) : ∃ past' now newer',
    Follows (a.finishLoad o) (Event.run (Event.land past.length o) s) past' now (older ++ newer) newer' := by
  have hloading : r.phase = .loading := by
    rw [h.phase r rfl, hload]
    rfl
  have hphase : s.phase? past.length = some .loading := by
    rw [h.order.phase?_last, hloading]
  have hrenders : s.coordinator.renders = past.length := by
    rw [h.order.renders, Option.any_some, hloading]
    rfl
  -- The session takes the four steps one by one.
  have hloaded := h.order.enter (p := .loaded o) s.graph rfl hrenders
  have hwritten := hloaded.enter (p := .written o) (s.graph.setMany rootScopeId o.exports) rfl hrenders
  have hannounced := hwritten.enter (p := .announced o) (s.graph.setMany rootScopeId o.exports) rfl
    (congrArg (· + 1) hrenders)
  have hrun : Event.run (Event.land past.length o) s =
      (((s.enter past.length (.loaded o)).write past.length o).announce past.length o).complete
        past.length o := by
    simp [Event.land, Event.run, Event.apply, hphase]
  have hcalls : a.calls = past.map (·.trigger) ++ [r.trigger] := by
    rw [h.calls, hload]
    rfl
  rw [hrun]
  refine ⟨_, _, _, hannounced.complete o rfl, ?_, ?_, ?_, fun _ => rfl, ?_, rfl, ?_⟩
  · rw [coordinator_complete]
    change s.coordinator.published.complete o.ok = a.coordinator.published.complete o.ok
    rw [h.coordinator]
  · rw [graph_complete]
    change s.graph.setMany rootScopeId o.exports = a.graph.setMany rootScopeId o.exports
    rw [h.graph]
  · intro r' hr'
    obtain ⟨trigger, -, rfl⟩ := Option.map_eq_some_iff.1 hr'
    rfl
  · change a.calls = _
    rw [hcalls, List.map_append]
    simp [AutoRefresh.finishLoad]
  · have holder : older.filterMap (toldBy (past ++ [{ r with phase := .ended o }])) =
        older.filterMap (toldBy past) :=
      List.filterMap_congr fun q hq => toldBy_append (h.order.older_run q hq).1
    have hnewer : newer.filterMap (toldBy (past ++ [{ r with phase := .ended o }])) =
        newer.filterMap fun q => q.waiter.map fun w => (w.number, o.ok) := by
      refine List.filterMap_congr fun q hq => ?_
      unfold toldBy
      rw [h.order.newer_run q hq, List.getElem?_concat_length]
      rfl
    change a.told ++ a.waiters.map _ = _
    rw [h.told, h.waiters, List.filterMap_append, holder, hnewer, List.map_filterMap]

end Follows

/-! ### Whole runs -/

/-- What timed refreshing has come to is what a session has come to, which started with the graph `g`. -/
def Traced (g : ScopeGraph V) (a : AutoRefresh V) : Prop :=
  ∃ events past now older newer, Follows a (Event.run events (start g)) past now older newer

theorem run_append (events more : List (Event V)) (s : Session V) :
    Event.run (events ++ more) s = Event.run more (Event.run events s) := List.foldl_append

variable {g : ScopeGraph V}

namespace Traced

theorem request (h : Traced g a) (trigger : LoadTrigger) (waiter : Option Waiter) :
    Traced g (a.request trigger waiter) := by
  obtain ⟨events, past, now, older, newer, h⟩ := h
  obtain ⟨now, newer, h⟩ := h.request trigger waiter
  refine ⟨events ++ [.request trigger waiter], past, now, older, newer, ?_⟩
  rw [run_append]
  exact h

theorem congr (h : Traced g a) (hcoordinator : b.coordinator = a.coordinator)
    (hgraph : b.graph = a.graph) (hload : b.load = a.load) (hcalls : b.calls = a.calls)
    (hwaiters : b.waiters = a.waiters) (htold : b.told = a.told) : Traced g b := by
  obtain ⟨events, past, now, older, newer, h⟩ := h
  exact ⟨events, past, now, older, newer, h.congr hcoordinator hgraph hload hcalls hwaiters htold⟩

theorem runAction (h : Traced g a) : Traced g a.runAction := by
  have htaken : Traced g { a with actions := a.actions - 1 } := h.congr rfl rfl rfl rfl rfl rfl
  unfold AutoRefresh.runAction
  dsimp only
  split
  · exact htaken.request .autoRefresh none
  · exact htaken

theorem stepNow (h : Traced g a) (source : LoadSource V) (hb : a.stepNow source = some b) :
    Traced g b := by
  unfold AutoRefresh.stepNow at hb
  split at hb
  · next trigger hinFlight hload =>
    rw [← Option.some.inj hb]
    obtain ⟨events, past, now, older, newer, h⟩ := h
    cases now with
    | none =>
      have hidle := h.order.inFlight
      rw [h.coordinator, hinFlight] at hidle
      contradiction
    | some r =>
      refine ⟨events ++ [.begin past.length], past, some { r with phase := .loading }, older, newer, ?_⟩
      rw [run_append]
      exact h.beginLoad hload source hinFlight
  · split at hb
    · next l hdue =>
      have hload : a.load.isSome = true := by
        unfold AutoRefresh.dueLoad at hdue
        rw [(Option.filter_eq_some_iff.1 hdue).1]
        rfl
      rw [← Option.some.inj hb]
      obtain ⟨events, past, now, older, newer, h⟩ := h
      cases now with
      | none =>
        rw [h.idle rfl] at hload
        contradiction
      | some r =>
        obtain ⟨past', now, newer', h⟩ := h.finishLoad hload l.outcome
        refine ⟨events ++ Event.land past.length l.outcome, past', now, older ++ newer, newer', ?_⟩
        rw [run_append]
        exact h
    · split at hb
      · rw [← Option.some.inj hb]
        exact h.congr rfl rfl rfl rfl rfl rfl
      · split at hb
        · rw [← Option.some.inj hb]
          exact h.congr rfl rfl rfl rfl rfl rfl
        · split at hb
          · rw [← Option.some.inj hb]
            exact h.runAction
          · contradiction

theorem runFor (h : Traced g a) (source : LoadSource V) (limit count : Nat) :
    Traced g (a.runFor source limit count) := by
  induction count generalizing a with
  | zero => exact h.congr rfl rfl rfl rfl rfl rfl
  | succ count ih =>
    unfold AutoRefresh.runFor
    split
    · next b hb => exact ih (h.stepNow source hb)
    · split
      · next t _ =>
        split
        · exact ih (h.congr rfl rfl rfl rfl rfl rfl)
        · exact h.congr rfl rfl rfl rfl rfl rfl
      · exact h.congr rfl rfl rfl rfl rfl rfl

end Traced

/-- All that timed refreshing can come to. -/
inductive Reached (source : LoadSource V) : AutoRefresh V → Prop
  | new (settings : Settings) : Reached source (.new settings)
  | request {a : AutoRefresh V} (trigger : LoadTrigger) (waiter : Option Waiter) :
      Reached source a → Reached source (a.request trigger waiter)
  | handle {a : AutoRefresh V} (event : FileEvent) : Reached source a → Reached source (a.handle event).2
  | updateSettings {a : AutoRefresh V} (settings : Settings) :
      Reached source a → Reached source (a.updateSettings settings)
  | advance {a : AutoRefresh V} (time : Nat) : Reached source a → Reached source (a.advance source time)

theorem Reached.traced (h : Reached source a) : Traced .new a := by
  induction h with
  | new settings => exact ⟨[], [], none, [], [], .new settings⟩
  | request trigger waiter _ ih => exact ih.request trigger waiter
  | handle event _ ih => exact ih.congr rfl rfl rfl rfl rfl rfl
  | updateSettings settings _ ih => exact ih.congr rfl rfl rfl rfl rfl rfl
  | advance time _ ih => exact ih.runFor source _ _

/-- Those who wait have been told the answers to their requests, and those who have none still wait. -/
theorem Reached.exists_session (h : Reached source a) : ∃ events,
    let s := Event.run events (start .new)
    s.coordinator = a.coordinator ∧ s.graph = a.graph ∧
      (a.load.isSome = true ↔ ∃ k, s.phase? k = some .loading) ∧
      a.waiters = (s.requests.filter fun q => (s.answer? q).isNone).filterMap (·.waiter) ∧
      a.told = s.requests.filterMap fun q =>
        (s.answer? q).bind fun ok => q.waiter.map fun w => (w.number, ok) := by
  obtain ⟨events, past, now, older, newer, h⟩ := h.traced
  refine ⟨events, ?_⟩
  generalize Event.run events (start .new) = s at h
  refine ⟨h.coordinator, h.graph, ?_, ?_, ?_⟩
  · constructor
    · intro hload
      cases now with
      | none =>
        rw [h.idle rfl] at hload
        contradiction
      | some r =>
        refine ⟨past.length, ?_⟩
        rw [h.order.phase?_last, h.phase r rfl, if_pos hload]
    · rintro ⟨k, hk⟩
      obtain ⟨-, r, hnow, hr⟩ := h.order.eq_of_phase? hk rfl
      by_contra hload
      rw [h.phase r hnow, if_neg hload] at hr
      contradiction
  · have holder : older.filter (fun q => (s.answer? q).isNone) = [] := by
      refine List.filter_eq_nil_iff.2 fun q hq => ?_
      rw [Option.isNone_iff_eq_none]
      exact Option.isSome_iff_ne_none.1 (h.order.isSome_answer? hq)
    have hnewer : newer.filter (fun q => (s.answer? q).isNone) = newer := by
      refine List.filter_eq_self.2 fun q hq => ?_
      rw [h.order.answer?_eq_none hq]
      rfl
    rw [h.waiters, h.order.requests, List.filter_append, holder, hnewer, List.nil_append]
  · have holder : older.filterMap (toldBy s.runs) = older.filterMap (toldBy past) := by
      refine List.filterMap_congr fun q hq => ?_
      rw [h.order.runs]
      exact toldBy_append (h.order.older_run q hq).1
    have hnewer : newer.filterMap (toldBy s.runs) = [] := by
      refine List.filterMap_eq_nil_iff.2 fun q hq => ?_
      rw [toldBy_eq, h.order.answer?_eq_none hq]
      rfl
    rw [h.told, ← holder, ← List.filterMap_congr fun q _ => toldBy_eq s q, h.order.requests,
      List.filterMap_append, hnewer, List.append_nil]

theorem Reached.idle (h : Reached source a) (hidle : a.coordinator.isLoading = false) :
    a.coordinator.pending = none ∧ a.coordinator.renders = a.coordinator.completed ∧
      a.calls.length = a.coordinator.completed ∧ a.load = none ∧ a.waiters = [] := by
  obtain ⟨events, past, now, older, newer, h⟩ := h.traced
  have hnow : now = none := by
    unfold Coordinator.isLoading at hidle
    rw [← h.coordinator, h.order.inFlight, Option.isSome_map] at hidle
    exact Option.not_isSome_iff_eq_none.1 (Bool.eq_false_iff.1 hidle)
  subst hnow
  have hnewer : newer = [] := h.order.idle rfl
  have hcalls : a.calls = past.map (·.trigger) := h.calls.trans (List.append_nil _)
  rw [← h.coordinator]
  refine ⟨?_, ?_, ?_, h.idle rfl, ?_⟩
  · rw [h.order.pending, hnewer]
    rfl
  · exact h.order.renders.trans h.order.completed.symm
  · rw [hcalls, List.length_map, h.order.completed]
  · rw [h.waiters, hnewer]
    rfl

/-- A refresh that waits for its result is a request and all steps of the run that it starts. -/
theorem refresh_eq_session (h : s.Orderly past none older newer) {w : World V}
    (hcoordinator : s.coordinator = w.coordinator) (hgraph : s.graph = w.graph) (l : Loader V)
    (trigger : LoadTrigger) :
    let s' := Event.run (.request trigger none :: Event.finish past.length (w.load l trigger).1) s
    s'.coordinator = (w.refresh l trigger).2.coordinator ∧ s'.graph = (w.refresh l trigger).2.graph ∧
      s'.answer? ⟨trigger, none, past.length, true⟩ = some (w.refresh l trigger).1 := by
  have hasked := (h.request_none trigger none).phase?_last
  have hrun : Event.run (.request trigger none :: Event.finish past.length (w.load l trigger).1) s =
      (((((s.request trigger none).enter past.length .loading).enter past.length
        (.loaded (w.load l trigger).1)).write past.length (w.load l trigger).1).announce past.length
          (w.load l trigger).1).complete past.length (w.load l trigger).1 := by
    simp [Event.finish, Event.land, Event.run, Event.apply, hasked]
  intro s'
  have hs' : s' = _ := hrun
  rw [hs']
  refine ⟨?_, ?_, ?_⟩
  · rw [coordinator_complete]
    change (s.request trigger none).coordinator.published.complete _ = _
    rw [coordinator_request, hcoordinator]
    rfl
  · rw [graph_complete]
    change (s.request trigger none).graph.setMany rootScopeId _ = _
    rw [graph_request, hgraph]
    rfl
  · unfold answer?
    rw [phase?_complete (p := .announced (w.load l trigger).1) _ (by simp [hasked]), if_pos rfl]
    rfl

end LiveNotes.Refresh
