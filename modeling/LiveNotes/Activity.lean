import LiveNotes.Document.Preview

/-! Work that goes on side by side. Activities take turns in the order of their start, each going on
until it is over or has to wait. -/

namespace LiveNotes

/-- What an activity is still to do. -/
inductive Activity (V : Type) where
  /-- Waits for a scope, or for all those above it as well. -/
  | waiting (wait : ScopeWait) (all : Bool)
  | evaluating (job : Job V)
  | previewing (preview : Preview V)
  deriving Repr, Inhabited

/-- What an activity ends with. -/
inductive ActivityResult (V : Type) where
  | released
  | output (output : FragmentOutput V)
  | outputs (outputs : List (FragmentKind × FragmentOutput V))
  deriving Repr, Inhabited

namespace Activity

variable {V : Type}

/-- An activity, or its result when it is over. -/
abbrev State (V : Type) := Activity V ⊕ ActivityResult V

/-- Goes on with a wait. -/
def runWait (g : ScopeGraph V) (w : ScopeWait) (all : Bool) : State V :=
  if all then
    match g.await? w with
    | some w => .inl (.waiting w true)
    | none => .inr .released
  else if g.letsGo w then .inr .released
  else .inl (.waiting (g.hold w) false)

/-- Goes on with an activity until it is over or has to wait. -/
def run (e : Evaluator V) (a : Activity V) (w : World V) : State V × World V :=
  match a with
  | .waiting wait all => (runWait w.graph wait all, w)
  | .evaluating job =>
    let (job, w) := job.run e w
    match job.output? with
    | some o => (.inr (.output o), w)
    | none => (.inl (.evaluating job), w)
  | .previewing p =>
    let (p, w) := p.run e w
    match p.outputs? with
    | some os => (.inr (.outputs os), w)
    | none => (.inl (.previewing p), w)

/-- A turn of each activity that is not over. -/
def turn (e : Evaluator V) : List (State V) → World V → List (State V) × World V
  | [], w => ([], w)
  | .inr r :: states, w =>
    let (states, w) := turn e states w
    (.inr r :: states, w)
  | .inl a :: states, w =>
    let (s, w) := a.run e w
    let (states, w) := turn e states w
    (s :: states, w)

/-- How far an activity can come. -/
def goal : Activity V → Nat
  | .previewing p => p.text.length + 3
  | _ => 1

/-- How far an activity has come. Only one that comes further may let others go on. -/
def progress : Activity V → Nat
  | .previewing p => p.progress
  | _ => 0

/-- What is left to do for some activities. -/
def remaining : List (State V) → Nat
  | [] => 0
  | .inl a :: states => a.goal - a.progress + remaining states
  | .inr _ :: states => remaining states

/-- Turns until none of the activities comes further, at most `count` of them. -/
def turns (e : Evaluator V) : Nat → List (State V) → World V → List (State V) × World V
  | 0, states, w => (states, w)
  | count + 1, states, w =>
    let (next, w) := turn e states w
    if remaining next < remaining states then turns e count next w else (next, w)

/-- Lets activities take turns until each is over or waits for what none of them brings about. -/
def settle (e : Evaluator V) (states : List (State V)) (w : World V) : List (State V) × World V :=
  turns e (remaining states + 1) states w

end Activity

end LiveNotes
