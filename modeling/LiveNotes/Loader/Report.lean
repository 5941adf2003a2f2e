import LiveNotes.Error
import LiveNotes.Json.Bounded
import LiveNotes.Json.Printer
import LiveNotes.Vault.Store

/-! The report that each load leaves behind, with the stages that the load went through and the time and
data on each; only so many of them are kept. -/

namespace LiveNotes

/-! ### Points of time as texts -/

namespace Moment

/-- The year, the month and the day, by the days since the start of 1970. Years are counted from the
first of March, so that a leap day is the last day of its year. -/
def dateOfDays (days : Nat) : Nat × Nat × Nat :=
  let shifted := days + 719468
  let inEra := shifted % 146097
  let yearInEra := (inEra - inEra / 1460 + inEra / 36524 - inEra / 146096) / 365
  let inYear := inEra - (365 * yearInEra + yearInEra / 4 - yearInEra / 100)
  let month := (5 * inYear + 2) / 153
  let day := inYear - (153 * month + 2) / 5 + 1
  let year := yearInEra + shifted / 146097 * 400
  if month < 10 then (year, month + 3, day) else (year + 1, month - 9, day)

/-- A number with zeros in front. -/
def digits (width n : Nat) : String :=
  let text := toString n
  String.ofList (List.replicate (width - text.length) '0') ++ text

/-- A point of time, by the seconds since the start of 1970 and the billionths of one. -/
def text (seconds nanos : Nat) : String :=
  let (year, month, day) := dateOfDays (seconds / 86400)
  let second := seconds % 86400
  digits 4 year ++ "-" ++ digits 2 month ++ "-" ++ digits 2 day ++ "T" ++ digits 2 (second / 3600) ++
    ":" ++ digits 2 (second / 60 % 60) ++ ":" ++ digits 2 (second % 60) ++ "." ++ digits 9 nanos ++
    "+00:00"

example : dateOfDays 0 = (1970, 1, 1) ∧ dateOfDays 11016 = (2000, 2, 29) ∧
    dateOfDays 20819 = (2027, 1, 1) := by decide

end Moment

/-! ### The stages of a load -/

structure TimelineEvent where
  /-- The time, as the clock tells it. -/
  moment : String
  stage : String
  data : Json
  deriving Repr, Inhabited

structure Timeline where
  events : Array TimelineEvent := #[]
  /-- How many events there was no room for. -/
  dropped : Nat := 0
  deriving Repr, Inhabited

namespace Timeline

def maxEvents : Nat := 5000

/-- Adds an event with bounded data, or counts it when there are too many. -/
def record (t : Timeline) (moment stage : String) (data : Json) : Timeline :=
  if maxEvents ≤ t.events.size then { t with dropped := t.dropped + 1 }
  else { t with events := t.events.push ⟨moment, stage, data.bounded⟩ }

theorem size_record_le {t : Timeline} (h : t.events.size ≤ maxEvents) (moment stage : String)
    (data : Json) : (t.record moment stage data).events.size ≤ maxEvents := by
  unfold record
  split
  · exact h
  · simp only [Array.size_push]
    omega

end Timeline

def TimelineEvent.toJson (e : TimelineEvent) : Json :=
  .object [("at", .text e.moment), ("stage", .text e.stage), ("data", e.data)]

/-! ### The report -/

/-- What a load was started by. -/
inductive LoadTrigger where
  | startup | refresh | autoRefresh
  deriving DecidableEq, Repr, Inhabited

def LoadTrigger.name : LoadTrigger → String
  | .startup => "startup"
  | .refresh => "refresh"
  | .autoRefresh => "auto-refresh"

/-- The stage that a load ended in. -/
inductive LoadPhase where
  | bundle | evaluate | success
  deriving DecidableEq, Repr, Inhabited

def LoadPhase.name : LoadPhase → String
  | .bundle => "bundle"
  | .evaluate => "import"
  | .success => "success"

/-- What is stored about an error besides its code and its text. -/
def Error.details : Error → List (String × Json)
  | .indexNotFound folders tried => [("folders", .texts folders), ("tried", .texts tried)]
  | .resolution e =>
    [("specifier", .text e.specifier), ("importer", .text e.importer), ("tried", .texts e.tried)]
  | .unresolvedImports imports => [("imports", .texts imports)]
  | .transpile e => [("diagnostics", .texts e.diagnostics)]
  | .bundle e => [("path", .optionalText e.path)]
  | _ => []

def Error.toJson (e : Error) : Json :=
  .ofFields ([("code", .text e.code), ("message", .text e.message)] ++ e.details ++
    (e.stack.map fun s => ("stack", Json.text s)).toList)

structure Report where
  phase : LoadPhase
  trigger : LoadTrigger
  moment : String
  failure : Option Error := none
  context : Json
  timeline : Timeline
  deriving Repr

namespace Report

/-- Whether the load reached its last stage without a failure. -/
def ok (r : Report) : Bool := r.phase == .success && r.failure.isNone

def toJson (r : Report) : Json :=
  .object [("phase", .text r.phase.name), ("trigger", .text r.trigger.name), ("ok", .bool r.ok),
    ("occurredAt", .text r.moment),
    ("errorText", .optionalText (r.failure.map Error.message)),
    ("errorStack", .optionalText (r.failure.bind Error.stack)),
    ("error", .ofOption (r.failure.map fun e => e.toJson.bounded)),
    ("context", r.context.bounded),
    ("timeline", .array (r.timeline.events.toList.map TimelineEvent.toJson))]

/-- What the file of the report holds. -/
def render (r : Report) : String := r.toJson.pretty

/-- How many characters of a report are shown. -/
def previewLength : Nat := 1800

def noReport : String := "No diagnostic report found yet. Refresh components to generate one."

/-- The start of a report's text. -/
def preview (text : String) : String :=
  Text.cut previewLength (fun n => "\n... [truncated " ++ toString n ++ " chars]") text

/-- Writes a report to its place in a store, and tells the place when it is there. -/
def save (r : Report) (store : Store) : Option String × Store :=
  match store.write Path.reportPath r.render with
  | .ok store => (some Path.reportPath, store)
  | .error _ => (none, store)

/-- The start of the report in a store, or what keeps it from being shown. -/
def shown (store : Store) : String :=
  if store.has Path.reportPath then
    match store.read Path.reportPath with
    | .ok text => preview text
    | .error e => "Failed to read " ++ Path.reportPath ++ ": " ++ e.message
  else noReport

end Report

end LiveNotes
