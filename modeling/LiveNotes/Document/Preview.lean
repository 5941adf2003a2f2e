import LiveNotes.Fragment.Job
import LiveNotes.Fragment.Scan

/-! The reading view of a whole document. All its scopes are made anew, and its fragments are
evaluated together. -/

namespace LiveNotes

/-- What the scopes of a document are known by. -/
inductive DocumentKey where
  | file (path : String)
  | anonymous (key : String)
  deriving DecidableEq, Repr, Inhabited

def DocumentKey.scopeId : DocumentKey → String
  | .file path => pageScopeId path
  | .anonymous key => anonymousScopeId key

inductive PreviewStage (V : Type) where
  | start
  /-- Waits until the scope of the page is not blocked. -/
  | waiting (wait : ScopeWait)
  | running (jobs : List (Job V))
  deriving Repr, Inhabited

structure Preview (V : Type) where
  document : DocumentKey
  text : String
  stage : PreviewStage V := .start
  deriving Repr, Inhabited

namespace Preview

variable {V : Type}

/-- A chain of new scopes for fragments, and the jobs for these. -/
def chain (page : String) : Nat → String → List Fragment → ScopeGraph V → List (Job V) × ScopeGraph V
  | _, _, [], g => ([], g)
  | index, read, f :: fs, g =>
    let write := fragmentScopeId page index
    -- A scope left by an earlier view goes, with all that is still below it.
    let g := (g.dispose write).child read write
    let (jobs, g) := chain page (index + 1) write fs g
    (⟨f.kind, f.content, ⟨read, write, f.component⟩, .start⟩ :: jobs, g)

def rebuild (p : Preview V) (w : World V) : Preview V × World V :=
  let page := p.document.scopeId
  let (jobs, g) := chain page 0 page (Document.scan p.text none) (w.graph.disposeDescendants page)
  ({ p with stage := .running jobs }, { w with graph := g })

/-- Rebuilds the page if its scope is not blocked. -/
def enter (p : Preview V) (wait : ScopeWait) (w : World V) : Preview V × World V :=
  if w.graph.letsGo wait then p.rebuild w
  else ({ p with stage := .waiting (w.graph.hold wait) }, w)

/-- Goes on with a preview until all its jobs are done or have to wait. -/
def run (e : Evaluator V) (p : Preview V) (w : World V) : Preview V × World V :=
  let (p, w) := match p.stage with
    | .start =>
      let page := p.document.scopeId
      p.enter { id := page } { w with graph := w.graph.child rootScopeId page }
    | .waiting wait => p.enter wait w
    | .running _ => (p, w)
  match p.stage with
  | .running jobs =>
    let (jobs, w) := Job.runAll e jobs w
    ({ p with stage := .running jobs }, w)
  | _ => (p, w)

/-- The outputs of all fragments, once all of them are there. -/
def outputs? (p : Preview V) : Option (List (FragmentKind × FragmentOutput V)) :=
  match p.stage with
  | .running jobs => jobs.mapM fun j => j.output?.map fun o => (j.kind, o)
  | _ => none

/-- How far a preview has come: whether the scopes of the page were touched, and how many jobs are
done. It never goes back. -/
def progress (p : Preview V) : Nat :=
  match p.stage with
  | .start => 0
  | .waiting _ => 1
  | .running jobs => 2 + (jobs.filter (·.output?.isSome)).length

end Preview

end LiveNotes
