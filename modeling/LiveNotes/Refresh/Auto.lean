import LiveNotes.Loader
import LiveNotes.Refresh.Coordinator
import LiveNotes.Scope.Graph
import LiveNotes.Settings

/-! Loads components again when their files change. Changes set off a timer; when it goes off an
action asks the coordinator for a load, unless refreshing is turned off by then. Loads take time, and
what they give is published in the root scope. -/

namespace LiveNotes

/-! A timer that goes off when nothing has triggered it for a while. The delay that counts is the one
at the time of the trigger. Times are in milliseconds. -/

structure Debouncer where
  delay : Nat
  /-- Triggers that the timer has not seen yet. -/
  ticks : Nat := 0
  /-- When the timer goes off. -/
  deadline : Option Nat := none
  deriving DecidableEq, Repr, Inhabited

namespace Debouncer

def trigger (d : Debouncer) : Debouncer := { d with ticks := d.ticks + 1 }

/-- Changes the delay for triggers that are not seen yet. -/
def setDelay (d : Debouncer) (delay : Nat) : Debouncer := { d with delay := delay }

/-- Sees a trigger: the timer starts again. -/
def takeTick (d : Debouncer) (now : Nat) : Debouncer :=
  { d with ticks := d.ticks - 1, deadline := some (now + d.delay) }

/-- Whether the timer goes off at some time up to `limit`. -/
def isDue (d : Debouncer) (limit : Nat) : Bool := d.deadline.any (· ≤ limit)

def fire (d : Debouncer) : Debouncer := { d with deadline := none }

/-- How many triggers are to be seen and timers to go off. -/
def work (d : Debouncer) : Nat := 2 * d.ticks + (if d.deadline.isSome then 1 else 0)

/-- What the timer does up to the time `limit`, in at most `count` steps, and when it goes off. -/
def runFor (limit : Nat) : Nat → Nat → Debouncer → List Nat × Debouncer
  | 0, _, d => ([], d)
  | count + 1, now, d =>
    if 0 < d.ticks then runFor limit count now (d.takeTick now)
    else match d.deadline with
      | none => ([], d)
      | some t =>
        if t ≤ limit then
          let (times, d) := runFor limit count (max now t) d.fire
          (t :: times, d)
        else ([], d)

/-- What the timer does from `now` up to the time `limit`, and when it goes off. -/
def run (d : Debouncer) (now limit : Nat) : List Nat × Debouncer := d.runFor limit d.work now

theorem work_takeTick (d : Debouncer) (now : Nat) (h : 0 < d.ticks) :
    (d.takeTick now).work < d.work := by
  simp only [work, takeTick, Option.isSome_some, if_true]
  omega

theorem work_fire (d : Debouncer) (h : d.deadline.isSome = true) : d.fire.work < d.work := by
  simp [work, fire, h]

end Debouncer

/-! ### Changes of files -/

inductive FileEvent where
  | modified (path : String)
  | created (path : String)
  | deleted (path : String)
  | renamed (path oldPath : String)
  deriving DecidableEq, Repr, Inhabited

/-- The paths that an event is about; a renamed file has two. -/
def FileEvent.paths : FileEvent → List String
  | .modified path | .created path | .deleted path => [path]
  | .renamed path oldPath => [path, oldPath]

namespace Refresh

/-- Whether a normal path is a source file in a folder of components. -/
def isSourceIn (folder path : String) : Bool :=
  (path == folder || Text.hasPrefix (folder ++ "/") path) &&
    path != folder ++ "/" ++ Path.storageFile &&
    Path.sourceExtensions.any fun extension => Text.hasSuffix extension path

/-- Whether a change at a path calls for a refresh. -/
def isDue (path : String) (folders : List String) (enabled filesLoaded : Bool) : Bool :=
  enabled && filesLoaded &&
    (normalizeFolders folders).any fun folder => isSourceIn folder (Path.normalize path)

end Refresh

/-- Supplies what the load with a given number gives, and how long it takes. -/
abbrev LoadSource (V : Type) := (number : Nat) → LoadTrigger → Nat × LoadOutcome V

/-- A load that has begun. -/
structure RunningLoad (V : Type) where
  due : Nat
  outcome : LoadOutcome V
  deriving Repr, Inhabited

/-- Someone who waits for the load in flight. -/
structure Waiter where
  number : Nat
  /-- Whether it waits for the load at the start, after which changes of files count. -/
  isStartup : Bool
  deriving DecidableEq, Repr, Inhabited

structure AutoRefresh (V : Type) where
  /-- The time, in milliseconds. -/
  now : Nat := 0
  settings : Settings := {}
  filesLoaded : Bool := false
  debouncer : Debouncer
  /-- How many actions are waiting to be run. -/
  actions : Nat := 0
  coordinator : Coordinator := {}
  /-- The load in flight, once it has begun. -/
  load : Option (RunningLoad V) := none
  waiters : List Waiter := []
  /-- Waiters that have been told the result, first ones first. -/
  told : List (Nat × Bool) := []
  /-- What all loads so far were started by. -/
  calls : List LoadTrigger := []
  graph : ScopeGraph V := .new
  deriving Inhabited

namespace AutoRefresh

variable {V : Type}

def new (settings : Settings) : AutoRefresh V :=
  { settings := settings, debouncer := { delay := settings.debounce } }

/-! ### What comes from outside -/

/-- Asks for a load and waits for its result. -/
def request (s : AutoRefresh V) (trigger : LoadTrigger) (waiter : Option Waiter) : AutoRefresh V :=
  { s with coordinator := s.coordinator.request trigger, waiters := s.waiters ++ waiter.toList }

/-- Asks for the load at the start. -/
def startup (s : AutoRefresh V) (number : Nat) : AutoRefresh V :=
  s.request .startup (some ⟨number, true⟩)

/-- The paths of an event that call for a refresh. -/
def duePaths (s : AutoRefresh V) (event : FileEvent) : List String :=
  event.paths.filter fun path =>
    Refresh.isDue path s.settings.folders s.settings.autoRefresh s.filesLoaded

/-- Takes an event, and tells whether a refresh is due. -/
def handle (s : AutoRefresh V) (event : FileEvent) : Bool × AutoRefresh V :=
  let due := s.duePaths event
  (!due.isEmpty, { s with debouncer := due.foldl (fun d _ => d.trigger) s.debouncer })

def updateSettings (s : AutoRefresh V) (settings : Settings) : AutoRefresh V :=
  { s with settings := settings, debouncer := s.debouncer.setDelay settings.debounce }

/-! ### What happens by itself -/

/-- Begins the load in flight. -/
def beginLoad (source : LoadSource V) (s : AutoRefresh V) (trigger : LoadTrigger) : AutoRefresh V :=
  let (time, outcome) := source s.calls.length trigger
  { s with load := some ⟨s.now + time, outcome⟩, calls := s.calls ++ [trigger] }

/-- Publishes what the load in flight has given, and tells those who wait for it. -/
def finishLoad (s : AutoRefresh V) (outcome : LoadOutcome V) : AutoRefresh V :=
  { s with
    graph := s.graph.setMany rootScopeId outcome.exports
    coordinator := s.coordinator.published.complete outcome.ok
    load := none
    waiters := []
    told := s.told ++ s.waiters.map fun w => (w.number, outcome.ok)
    filesLoaded := s.filesLoaded || s.waiters.any (·.isStartup) }

/-- Runs an action, which asks for a load if that is turned on. -/
def runAction (s : AutoRefresh V) : AutoRefresh V :=
  let s := { s with actions := s.actions - 1 }
  if s.settings.autoRefresh then s.request .autoRefresh none else s

/-- The timer goes off. -/
def fire (s : AutoRefresh V) : AutoRefresh V :=
  { s with debouncer := s.debouncer.fire, actions := s.actions + 1 }

/-- The load in flight, if it is over by the time `limit`. -/
def dueLoad (s : AutoRefresh V) (limit : Nat) : Option (RunningLoad V) :=
  s.load.filter (·.due ≤ limit)

/-- What happens without any time passing, if anything does. -/
def stepNow (source : LoadSource V) (s : AutoRefresh V) : Option (AutoRefresh V) :=
  match s.coordinator.inFlight, s.load with
  | some trigger, none => some (s.beginLoad source trigger)
  | _, _ =>
    match s.dueLoad s.now with
    | some l => some (s.finishLoad l.outcome)
    | none =>
      if 0 < s.debouncer.ticks then some { s with debouncer := s.debouncer.takeTick s.now }
      else if s.debouncer.isDue s.now then some s.fire
      else if 0 < s.actions then some s.runAction
      else none

/-- The next time at which something happens by itself. -/
def nextTime (s : AutoRefresh V) : Option Nat :=
  match s.load, s.debouncer.deadline with
  | some l, some t => some (min l.due t)
  | some l, none => some l.due
  | none, t => t

/-- What happens up to the time `limit`, in at most `count` steps. -/
def runFor (source : LoadSource V) (limit : Nat) : Nat → AutoRefresh V → AutoRefresh V
  | 0, s => { s with now := max s.now limit }
  | count + 1, s =>
    match s.stepNow source with
    | some s => runFor source limit count s
    | none =>
      match s.nextTime with
      | some t =>
        if t ≤ limit then runFor source limit count { s with now := max s.now t }
        else { s with now := max s.now limit }
      | none => { s with now := max s.now limit }

/-- A bound on what can happen without anything from outside: each trigger leads to a timer, each timer
to an action, each action to a load. -/
def work (s : AutoRefresh V) : Nat :=
  12 * s.debouncer.ticks + (if s.debouncer.deadline.isSome then 10 else 0) + 6 * s.actions +
    (if s.coordinator.pending.isSome then 4 else 0) + (if s.coordinator.isLoading then 4 else 0) + 1

/-- What happens in the given time. -/
def advance (source : LoadSource V) (s : AutoRefresh V) (time : Nat) : AutoRefresh V :=
  runFor source (s.now + time) s.work s

/-- What happens at once. -/
def settle (source : LoadSource V) (s : AutoRefresh V) : AutoRefresh V := s.advance source 0

end AutoRefresh

end LiveNotes
