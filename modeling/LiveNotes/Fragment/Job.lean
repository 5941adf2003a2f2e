import LiveNotes.Fragment
import LiveNotes.Loader
import LiveNotes.Refresh.Coordinator
import LiveNotes.Scope.Graph

/-! The evaluation of a fragment as a job in stages. A fragment reads names from one scope, and a block
of statements publishes what it exports in another one, which is blocked from the start of the job
until then. Each fragment waits for the scopes that it reads from before it is evaluated; so the
fragments of a document can be worked on together and still see each other in their order. -/

namespace LiveNotes

/-- What is shown in the place of a fragment. -/
inductive FragmentOutput (V : Type) where
  | text (s : String)
  /-- A function that makes markup. -/
  | markup (factory : V)
  /-- A component, with the content of the block inside of it. -/
  | component (component : V) (children : String)
  /-- The names that statements export. -/
  | published (names : List String)
  /-- A block of markup without content. -/
  | empty
  | error (message : String)
  deriving DecidableEq, Repr, Inhabited

/-- The scopes of a fragment, and the component it is the children of. -/
structure FragmentContext where
  read : String
  write : String
  component : Option String := none
  deriving DecidableEq, Repr, Inhabited

/-- What fragments are evaluated in. -/
structure World (V : Type) where
  graph : ScopeGraph V
  desk : Desk
  coordinator : Coordinator := {}
  deriving Inhabited

/-- How fragments are evaluated. -/
structure Evaluator (V : Type) where
  loader : Loader V
  /-- Whether markup waits for the first load of components. -/
  gated : Bool := false

/-- Where a job stands. Stages that wait for scopes hold what is already there. -/
inductive Stage (V : Type) where
  | start
  /-- An expression, transpiled. -/
  | expressionWaits (code : String) (wait : ScopeWait)
  | expressionImports (url : String)
  | expressionCalls (function : V)
  | spanWaitsForComponents
  | spanImports (url : String)
  /-- Markup in a line, imported. -/
  | spanWaits (factory : V) (wait : ScopeWait)
  | statementsWait (wait : ScopeWait)
  | statementsImport (url : String)
  | blockWaitsForComponents
  | blockWaits (wait : ScopeWait)
  | blockImports (url : String)
  | done (output : FragmentOutput V)
  deriving Repr, Inhabited

structure Job (V : Type) where
  kind : FragmentKind
  content : String
  context : FragmentContext
  stage : Stage V := .start
  deriving Repr, Inhabited

namespace Evaluator

variable {V : Type}

/-- In front of the message of an error in a line of text. -/
def errorMark : String := "❗️"

def lineError (e : Error) : FragmentOutput V := .text (errorMark ++ e.message)

def noDefaultExport : Error := .evaluation "Module has no default export" none

def defaultExport (exports : Exports V) : Except Error V :=
  match exports.get? "default" with
  | some v => .ok v
  | none => .error noDefaultExport

/-- Transpiles code that reads free names from a scope. -/
def transpile (e : Evaluator V) (source read : String) (registerImports : Bool) :
    Except Error String :=
  (e.loader.transpiler source
    { registerImports := registerImports, scope := some read, globals := e.loader.globals }).mapError
    .transpile

/-- Whether markup need not wait for components any more. -/
def componentsReady (e : Evaluator V) (w : World V) : Bool := !e.gated || 0 < w.coordinator.renders

def register (e : Evaluator V) (w : World V) (code : String) : String × World V :=
  let (url, desk) := e.loader.register w.desk code
  (url, { w with desk := desk })

def importUrl (e : Evaluator V) (w : World V) (url : String) :
    Except Error (Exports V) × World V :=
  let (r, desk) := e.loader.importUrl w.desk url
  (r, { w with desk := desk })

/-- Transpiles and registers code for the stage that imports it. -/
def compile (e : Evaluator V) (w : World V) (read source : String) (next : String → Stage V)
    (failed : Error → World V → Stage V × World V) : Stage V × World V :=
  match e.transpile source read true with
  | .error err => failed err w
  | .ok code =>
    let (url, w) := e.register w code
    (next url, w)

/-! ### The end of statements -/

/-- Statements that have failed leave the scope as it was, but for the block. -/
def statementsFail (write : String) (err : Error) (w : World V) : Stage V × World V :=
  (.done (.error err.message), { w with graph := w.graph.unblock write })

/-- What statements export replaces what the scope binds. -/
def publish (write : String) (exports : Exports V) (w : World V) : Stage V × World V :=
  (.done (.published exports.names),
    { w with graph := ((w.graph.reset write).setMany write exports).unblock write })

/-! ### Stages -/

def firstStage (e : Evaluator V) (j : Job V) (w : World V) : Stage V × World V :=
  match j.kind with
  | .inlineExpression =>
    match e.transpile (Transpile.expressionModule j.content) j.context.read false with
    | .error err => (.done (lineError err), w)
    | .ok code => (.expressionWaits code { id := j.context.read }, w)
  | .inlineMarkup => (.spanWaitsForComponents, w)
  | .blockStatement =>
    (.statementsWait { id := j.context.read }, { w with graph := w.graph.block j.context.write })
  | .blockMarkup =>
    if j.content.isEmpty then (.done .empty, w) else (.blockWaitsForComponents, w)

/-- The markup of a block, once all that it may read is there. -/
def showBlock (e : Evaluator V) (j : Job V) (w : World V) : Stage V × World V :=
  match j.context.component with
  | some name =>
    match w.graph.get? j.context.read name with
    | some c => (.done (.component c j.content), w)
    | none => (.done (.error (Error.evaluation (name ++ " is not defined") none).message), w)
  | none =>
    e.compile w j.context.read (Transpile.markupModule j.content) .blockImports fun err w =>
      (.done (.error err.message), w)

/-- Goes on with a job by one stage; `none` when it has to wait, or is done. -/
def step (e : Evaluator V) (j : Job V) (w : World V) : Option (Stage V × World V) :=
  match j.stage with
  | .start => some (e.firstStage j w)
  | .expressionWaits code wait =>
    match w.graph.await? wait with
    | some _ => none
    | none =>
      let (url, w) := e.register w code
      some (.expressionImports url, w)
  | .expressionImports url =>
    let (r, w) := e.importUrl w url
    match r.bind defaultExport with
    | .error err => some (.done (lineError err), w)
    | .ok function => some (.expressionCalls function, w)
  | .expressionCalls function =>
    match e.loader.host.call function with
    | .error err => some (.done (lineError err), w)
    | .ok value => some (.done (.text (e.loader.host.display value)), w)
  | .spanWaitsForComponents =>
    if e.componentsReady w then
      some (e.compile w j.context.read (Transpile.markupModule j.content) .spanImports fun err w =>
        (.done (lineError err), w))
    else none
  | .spanImports url =>
    let (r, w) := e.importUrl w url
    match r.bind defaultExport with
    | .error err => some (.done (lineError err), w)
    | .ok factory => some (.spanWaits factory { id := j.context.read }, w)
  | .spanWaits factory wait =>
    match w.graph.await? wait with
    | some _ => none
    | none => some (.done (.markup factory), w)
  | .statementsWait wait =>
    match w.graph.await? wait with
    | some _ => none
    | none =>
      some (e.compile w j.context.read j.content .statementsImport (statementsFail j.context.write))
  | .statementsImport url =>
    let (r, w) := e.importUrl w url
    match r with
    | .error err => some (statementsFail j.context.write err w)
    | .ok exports => some (publish j.context.write exports w)
  | .blockWaitsForComponents =>
    if e.componentsReady w then some (.blockWaits { id := j.context.read }, w) else none
  | .blockWaits wait =>
    match w.graph.await? wait with
    | some _ => none
    | none => some (e.showBlock j w)
  | .blockImports url =>
    let (r, w) := e.importUrl w url
    match r.bind defaultExport with
    | .error err => some (.done (.error err.message), w)
    | .ok factory => some (.done (.markup factory), w)
  | .done _ => none

end Evaluator

namespace World

variable {V : Type}

def load (l : Loader V) (w : World V) (trigger : LoadTrigger) : LoadOutcome V × World V :=
  let (outcome, desk) := l.load w.desk trigger
  (outcome, { w with desk := desk })

/-- Loads components through the coordinator and publishes what they export, when there is no load in
flight. -/
def refresh (l : Loader V) (w : World V) (trigger : LoadTrigger) : Bool × World V :=
  let (outcome, w) := { w with coordinator := w.coordinator.request trigger }.load l trigger
  (outcome.ok,
    { w with
      graph := w.graph.setMany rootScopeId outcome.exports
      coordinator := w.coordinator.published.complete outcome.ok })

end World

namespace Stage

variable {V : Type}

/-- The stage with the scope that it has come to wait for. -/
def hold (g : ScopeGraph V) : Stage V → Stage V
  | .expressionWaits code wait => .expressionWaits code ((g.await? wait).getD wait)
  | .spanWaits factory wait => .spanWaits factory ((g.await? wait).getD wait)
  | .statementsWait wait => .statementsWait ((g.await? wait).getD wait)
  | .blockWaits wait => .blockWaits ((g.await? wait).getD wait)
  | s => s

end Stage

namespace Job

variable {V : Type}

def output? (j : Job V) : Option (FragmentOutput V) :=
  match j.stage with
  | .done output => some output
  | _ => none

/-- More stages than a job has. -/
def stageBound : Nat := 8

/-- Goes on with a job through at most `count` stages. -/
def runFor (e : Evaluator V) : Nat → Job V → World V → Job V × World V
  | 0, j, w => (j, w)
  | count + 1, j, w =>
    match e.step j w with
    | some (stage, w) => runFor e count { j with stage := stage } w
    -- The wait is remembered, so that it need not pass the same scopes again.
    | none => ({ j with stage := j.stage.hold w.graph }, w)

/-- Goes on with a job until it is done or has to wait. -/
def run (e : Evaluator V) (j : Job V) (w : World V) : Job V × World V := runFor e stageBound j w

def runAll (e : Evaluator V) : List (Job V) → World V → List (Job V) × World V
  | [], w => ([], w)
  | j :: js, w =>
    let (j, w) := j.run e w
    let (js, w) := runAll e js w
    (j :: js, w)

end Job

end LiveNotes
