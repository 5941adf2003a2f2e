import LiveNotes.Refresh.Auto

/-! Schedules of what comes from outside and of what happens by itself, in any order. Between two steps of
one load, of the timer or of an action, anything else may happen. Beside the state stands the history that
led to it: which changes were accepted, what the timer saw of them, which of its firings an action looked
after, and which of these a load comes from. Points of history are told by the number of steps before them. -/

namespace LiveNotes.Refresh

variable {V : Type}

/-- The timer has gone off, which leads to an action. -/
structure Firing where
  time : Nat
  /-- Whether refreshing was turned on at that time. -/
  enabled : Bool
  /-- When the changes were accepted that the timer saw since its last firing. -/
  seen : List Nat
  /-- When that was. -/
  previous : Option Nat
  /-- When the changes were accepted that the timer had not seen by then. -/
  left : List Nat
  deriving DecidableEq, Repr, Inhabited

/-- A load, and the firing whose action has asked for it. -/
structure Load where
  time : Nat
  trigger : LoadTrigger
  cause : Option Firing
  deriving DecidableEq, Repr, Inhabited

structure Watch (V : Type) where
  auto : AutoRefresh V
  time : Nat := 0
  /-- When changes were accepted that call for a refresh, one entry for each path. -/
  accepted : List Nat := []
  /-- Those that the timer has not seen, those that it has seen since its last firing, and those that it
  had not seen at its last firing. -/
  queued : List Nat := []
  seen : List Nat := []
  left : List Nat := []
  firings : List Firing := []
  /-- The firings whose actions wait to be run. -/
  waiting : List Firing := []
  /-- The firings whose actions have run, and whether they found refreshing turned on. -/
  looks : List (Firing × Bool) := []
  /-- Whether settings were changed while an action was waiting. -/
  stirred : Bool := false
  /-- Whether the timer has gone off while triggers were queued. -/
  rushed : Bool := false
  /-- The firings behind the load in flight and behind the pending request. -/
  current : Option Firing := none
  next : Option Firing := none
  loads : List Load := []
  deriving Inhabited

namespace Watch

def new (settings : Settings) : Watch V := { auto := .new settings }

def lastFiring? (w : Watch V) : Option Nat := w.firings.getLast?.map (·.time)

/-! ### Steps -/

/-- Asks for a load on behalf of a firing, or of nothing. -/
def request (w : Watch V) (trigger : LoadTrigger) (waiter : Option Waiter) (cause : Option Firing) : Watch V :=
  { w with
    auto := w.auto.request trigger waiter
    current := if w.auto.coordinator.isLoading then w.current else cause
    next := if w.auto.coordinator.isLoading then cause else w.next }

/-- Takes a change of files. -/
def accept (w : Watch V) (event : FileEvent) : Watch V :=
  let times := (w.auto.duePaths event).map fun _ => w.time
  { w with
    auto := (w.auto.handle event).2
    accepted := w.accepted ++ times
    queued := w.queued ++ times }

def update (w : Watch V) (settings : Settings) : Watch V :=
  { w with auto := w.auto.updateSettings settings, stirred := w.stirred || !w.waiting.isEmpty }

def wait (w : Watch V) (time : Nat) : Watch V :=
  { w with auto := { w.auto with now := w.auto.now + time } }

/-- The timer sees the change that has waited longest. -/
def see (w : Watch V) : Watch V :=
  { w with
    auto := { w.auto with debouncer := w.auto.debouncer.takeTick w.auto.now }
    queued := w.queued.tail
    seen := w.seen ++ w.queued.head?.toList }

/-- The firing that the timer is up to. -/
def firing (w : Watch V) : Firing :=
  ⟨w.time, w.auto.settings.autoRefresh, w.seen, w.lastFiring?, w.left⟩

def fire (w : Watch V) : Watch V :=
  { w with
    auto := w.auto.fire
    rushed := w.rushed || !w.queued.isEmpty
    seen := []
    left := w.queued
    firings := w.firings ++ [w.firing]
    waiting := w.waiting ++ [w.firing] }

/-- An action of a firing has looked whether refreshing is turned on. -/
def look (w : Watch V) (i : Nat) (f : Firing) : Watch V :=
  { w with
    auto := { w.auto with actions := w.auto.actions - 1 }
    waiting := w.waiting.eraseIdx i
    looks := w.looks ++ [(f, w.auto.settings.autoRefresh)] }

/-- Runs one of the waiting actions. -/
def act (w : Watch V) (i : Nat) (f : Firing) : Watch V :=
  if w.auto.settings.autoRefresh then (w.look i f).request .autoRefresh none (some f) else w.look i f

def begin (w : Watch V) (trigger : LoadTrigger) (time : Nat) (outcome : LoadOutcome V) : Watch V :=
  { w with
    auto := w.auto.beginLoad (fun _ _ => (time, outcome)) trigger
    loads := w.loads ++ [⟨w.time, trigger, w.current⟩] }

def finish (w : Watch V) (outcome : LoadOutcome V) : Watch V :=
  { w with auto := w.auto.finishLoad outcome, current := w.next, next := none }

end Watch

/-- A step of a schedule. -/
inductive Step (V : Type) where
  | request (trigger : LoadTrigger) (waiter : Option Waiter)
  | change (event : FileEvent)
  | update (settings : Settings)
  | wait (time : Nat)
  | see
  | fire
  | act (i : Nat)
  | begin (time : Nat) (outcome : LoadOutcome V)
  | finish
  deriving Inhabited

namespace Step

/-- What a step does; one that cannot be taken does nothing. -/
def apply (step : Step V) (w : Watch V) : Watch V :=
  match step with
  | .request trigger waiter => if trigger = .autoRefresh then w else w.request trigger waiter none
  | .change event => w.accept event
  | .update settings => w.update settings
  | .wait time => w.wait time
  | .see => if 0 < w.auto.debouncer.ticks then w.see else w
  | .fire => if w.auto.debouncer.isDue w.auto.now then w.fire else w
  | .act i =>
    match w.waiting[i]? with
    | some f => w.act i f
    | none => w
  | .begin time outcome =>
    match w.auto.coordinator.inFlight, w.auto.load with
    | some trigger, none => w.begin trigger time outcome
    | _, _ => w
  | .finish =>
    match w.auto.dueLoad w.auto.now with
    | some l => w.finish l.outcome
    | none => w

def run (steps : List (Step V)) (w : Watch V) : Watch V :=
  steps.foldl (fun w step => { step.apply w with time := w.time + 1 }) w

end Step

/-- What a step may do to a watch. -/
inductive Moves (w : Watch V) : Watch V → Prop
  | none : Moves w w
  | request {trigger : LoadTrigger} (waiter : Option Waiter) : trigger ≠ .autoRefresh →
      Moves w (w.request trigger waiter none)
  | accept (event : FileEvent) : Moves w (w.accept event)
  | update (settings : Settings) : Moves w (w.update settings)
  | wait (time : Nat) : Moves w (w.wait time)
  | see : 0 < w.auto.debouncer.ticks → Moves w w.see
  | fire : w.auto.debouncer.deadline.isSome = true → Moves w w.fire
  | act {i : Nat} {f : Firing} : w.waiting[i]? = some f → Moves w (w.act i f)
  | begin {trigger : LoadTrigger} (time : Nat) (outcome : LoadOutcome V) :
      w.auto.coordinator.inFlight = some trigger → w.auto.load = Option.none →
      Moves w (w.begin trigger time outcome)
  | finish (outcome : LoadOutcome V) : w.auto.load.isSome = true → Moves w (w.finish outcome)

namespace Step

theorem moves_apply (step : Step V) (w : Watch V) : Moves w (step.apply w) := by
  cases step with
  | request trigger waiter =>
    rw [apply]
    split
    · exact .none
    · next h => exact .request waiter h
  | change event => exact .accept event
  | update settings => exact .update settings
  | wait time => exact .wait time
  | see =>
    rw [apply]
    split
    · next h => exact .see h
    · exact .none
  | fire =>
    rw [apply]
    split
    · next h =>
      refine .fire ?_
      obtain ⟨t, ht, -⟩ := (Option.any_eq_true _ _).1 h
      exact Option.isSome_iff_exists.2 ⟨t, ht⟩
    · exact .none
  | act i =>
    rw [apply]
    split
    · next f h => exact .act h
    · exact .none
  | begin time outcome =>
    rw [apply]
    split
    · next trigger hinFlight hload => exact .begin time outcome hinFlight hload
    · exact .none
  | finish =>
    rw [apply]
    split
    · next l h =>
      have hload := (Option.filter_eq_some_iff.1 h).1
      exact .finish l.outcome (by rw [hload]; rfl)
    · exact .none

/-- What holds at the start and is kept by every step holds after a schedule. -/
theorem run_induction {p : Watch V → Prop} {w : Watch V} (hw : p w)
    (hstep : ∀ w w', p w → Moves w w' → p { w' with time := w.time + 1 }) (steps : List (Step V)) :
    p (run steps w) := by
  induction steps generalizing w with
  | nil => exact hw
  | cons step steps ih => exact ih (hstep w _ hw (moves_apply step w))

end Step

/-! ### Time passing -/

/-- Each action that waits is the one of a firing. -/
theorem length_waiting_of_moves {w w' : Watch V} (h : w.waiting.length = w.auto.actions) (hmoves : Moves w w') :
    w'.waiting.length = w'.auto.actions := by
  cases hmoves with
  | fire =>
    change (w.waiting ++ [w.firing]).length = w.auto.actions + 1
    rw [List.length_append, h]
    rfl
  | @act i f hi =>
    have hlook : (w.look i f).waiting.length = (w.look i f).auto.actions := by
      change (w.waiting.eraseIdx i).length = w.auto.actions - 1
      rw [List.length_eraseIdx_of_lt (List.getElem?_eq_some_iff.1 hi).1, h]
    unfold Watch.act
    split
    · exact hlook
    · exact hlook
  | _ => exact h

theorem length_waiting_run (settings : Settings) (steps : List (Step V)) :
    (Step.run steps (.new settings)).waiting.length = (Step.run steps (.new settings)).auto.actions := by
  refine Step.run_induction (p := fun w => w.waiting.length = w.auto.actions) rfl (fun w w' h hmoves => ?_) steps
  have hlength := length_waiting_of_moves h hmoves
  exact hlength

namespace Step

variable {source : LoadSource V} {w : Watch V} {a : AutoRefresh V}

theorem act_auto (w : Watch V) (i : Nat) (f : Firing) : (w.act i f).auto = w.auto.runAction := by
  unfold Watch.act AutoRefresh.runAction
  dsimp only
  split
  · rfl
  · rfl

/-- What happens by itself at once is a step. -/
theorem exists_step_stepNow (hwaiting : w.waiting.length = w.auto.actions) (h : w.auto.stepNow source = some a) :
    ∃ step : Step V, (step.apply w).auto = a := by
  unfold AutoRefresh.stepNow at h
  split at h
  · next trigger hinFlight hload =>
    refine ⟨.begin (source w.auto.calls.length trigger).1 (source w.auto.calls.length trigger).2, ?_⟩
    rw [apply, hinFlight, hload]
    exact Option.some.inj h
  · split at h
    · next l hl =>
      refine ⟨.finish, ?_⟩
      rw [apply, hl]
      exact Option.some.inj h
    · split at h
      · next hticks =>
        refine ⟨.see, ?_⟩
        rw [apply, if_pos hticks]
        exact Option.some.inj h
      · split at h
        · next hdue =>
          refine ⟨.fire, ?_⟩
          rw [apply, if_pos hdue]
          exact Option.some.inj h
        · split at h
          · next hactions =>
            rw [← hwaiting] at hactions
            refine ⟨.act 0, ?_⟩
            rw [apply, List.getElem?_eq_getElem hactions]
            exact (act_auto ..).trans (Option.some.inj h)
          · contradiction

theorem exists_wait (w : Watch V) (time : Nat) :
    ∃ step : Step V, (step.apply w).auto = { w.auto with now := max w.auto.now time } := by
  have hnow : w.auto.now + (max w.auto.now time - w.auto.now) = max w.auto.now time :=
    Nat.add_sub_cancel' (Nat.le_max_left _ _)
  exact ⟨.wait _, congrArg (fun now => { w.auto with now := now }) hnow⟩

/-- What happens by itself up to some time is a schedule. -/
theorem exists_steps_runFor (limit count : Nat) (hwaiting : w.waiting.length = w.auto.actions) :
    ∃ steps : List (Step V), (run steps w).auto = w.auto.runFor source limit count := by
  have hlast : ∃ steps : List (Step V), (run steps w).auto = { w.auto with now := max w.auto.now limit } := by
    obtain ⟨step, hstep⟩ := exists_wait w limit
    exact ⟨[step], hstep⟩
  induction count generalizing w with
  | zero => exact hlast
  | succ count ih =>
    have hnext : ∀ (step : Step V) (a : AutoRefresh V), (step.apply w).auto = a →
        ∃ steps, (run steps w).auto = a.runFor source limit count := by
      intro step a ha
      have hlength := length_waiting_of_moves hwaiting (moves_apply step w)
      obtain ⟨last, hlast⟩ := exists_wait { step.apply w with time := w.time + 1 } limit
      obtain ⟨steps, hsteps⟩ := ih (w := { step.apply w with time := w.time + 1 }) hlength ⟨[last], hlast⟩
      exact ⟨step :: steps, hsteps.trans (congrArg (·.runFor source limit count) ha)⟩
    rw [AutoRefresh.runFor]
    split
    · next a ha =>
      obtain ⟨step, hstep⟩ := exists_step_stepNow hwaiting ha
      exact hnext step a hstep
    · split
      · next t _ =>
        split
        · obtain ⟨step, hstep⟩ := exists_wait w t
          exact hnext step _ hstep
        · exact hlast
      · exact hlast

/-- So all that comes from outside, with time passing in between, is a schedule. -/
theorem exists_steps_advance (settings : Settings) (source : LoadSource V) (steps : List (Step V)) (time : Nat) :
    ∃ more : List (Step V), (run (steps ++ more) (.new settings)).auto =
      (run steps (.new settings)).auto.advance source time := by
  obtain ⟨more, hmore⟩ : ∃ more : List (Step V),
      (run more (run steps (.new settings))).auto = (run steps (.new settings)).auto.advance source time :=
    exists_steps_runFor _ _ (length_waiting_run settings steps)
  refine ⟨more, ?_⟩
  rw [run, List.foldl_append]
  exact hmore

end Step

end LiveNotes.Refresh
