import LiveNotes.Proofs.Document.Chain
import LiveNotes.Proofs.Fragment.InOrder

/-! The reading view of a document as a whole. Its fragments are evaluated together, in any order that
their waits, imports and calls come to an end; the results and the scopes are those of fragments
evaluated one after the other. -/

namespace LiveNotes.Preview

variable {V : Type} {e : Evaluator V} {p q : Preview V} {w w' w₁ : World V}

/-- A reading view goes on: it makes the scopes of its page, once that is not blocked, and then any of
its jobs may go on. -/
inductive Moves (e : Evaluator V) : Preview V × World V → Preview V × World V → Prop
  | start {p : Preview V} {w : World V} : p.stage = .start →
      Moves e (p, w) (p.enter { id := p.document.scopeId }
        { w with graph := w.graph.child rootScopeId p.document.scopeId })
  | wait {p : Preview V} {w : World V} {wait : ScopeWait} : p.stage = .waiting wait →
      Moves e (p, w) (p.enter wait w)
  | job {p : Preview V} {w w' : World V} {jobs jobs' : List (Job V)} : p.stage = .running jobs →
      Job.Moves e (jobs, w) (jobs', w') → Moves e (p, w) ({ p with stage := .running jobs' }, w')

def Interleaves (e : Evaluator V) : Preview V × World V → Preview V × World V → Prop :=
  Relation.ReflTransGen (Moves e)

def withPage (p : Preview V) (w : World V) : World V :=
  { w with graph := w.graph.child rootScopeId p.document.scopeId }

/-- How far a reading view has come from its start. -/
inductive Under (e : Evaluator V) (p : Preview V) (w : World V) : Preview V × World V → Prop
  | start : Under e p w (p, w)
  | waiting {wait : ScopeWait} : (p.withPage w).graph.letsGo wait = false →
      Under e p w ({ p with stage := .waiting wait }, p.withPage w)
  | running {jobs jobs' : List (Job V)} {w' : World V} :
      (p.withPage w).graph.letsGo { id := p.document.scopeId } = true →
      (p.rebuild (p.withPage w)).1.stage = .running jobs →
      Job.Interleaves e (jobs, (p.rebuild (p.withPage w)).2) (jobs', w') →
      Under e p w ({ p with stage := .running jobs' }, w')

theorem letsGo_hold {g : ScopeGraph V} {wait : ScopeWait} (h : g.letsGo wait = false) :
    g.letsGo (g.hold wait) = false := by
  unfold ScopeGraph.letsGo at h ⊢
  unfold ScopeGraph.hold
  cases hs : g.scope? wait.id with
  | none =>
    rw [hs] at h
    contradiction
  | some s =>
    rw [hs] at h
    dsimp only at h ⊢
    rw [Bool.or_eq_false_iff] at h
    simp [h.1]

/-- A reading view under way stays so. -/
theorem Under.move {a b : Preview V × World V} (hp : p.stage = .start) (h : Under e p w a)
    (hmove : Moves e a b) : Under e p w b := by
  cases h with
  | start =>
    cases hmove with
    | start _ =>
      unfold enter
      split
      · next hgo => exact .running hgo rfl Relation.ReflTransGen.refl
      · next hstop => exact .waiting (letsGo_hold (Bool.not_eq_true _ ▸ hstop))
    | wait hstage =>
      rw [hp] at hstage
      contradiction
    | job hstage _ =>
      rw [hp] at hstage
      contradiction
  | waiting hstop =>
    cases hmove with
    | start hstage => contradiction
    | wait hstage =>
      -- No job has begun, so the scope of the page is as blocked as before.
      obtain rfl := PreviewStage.waiting.inj hstage
      unfold enter
      rw [if_neg (Bool.not_eq_true _ ▸ hstop)]
      exact .waiting (letsGo_hold hstop)
    | job hstage _ => contradiction
  | running hgo hjobs hrun =>
    cases hmove with
    | start hstage => contradiction
    | wait hstage => contradiction
    | job hstage hmove =>
      obtain rfl := PreviewStage.running.inj hstage
      exact .running hgo hjobs (hrun.tail hmove)

theorem Under.of_interleaves {a : Preview V × World V} (hp : p.stage = .start)
    (h : Interleaves e (p, w) a) : Under e p w a := by
  induction h with
  | refl => exact .start
  | tail _ hmove ih => exact ih.move hp hmove

/-- Jobs that go on in some order make a reading view go on. -/
theorem interleaves_of_running {jobs jobs' : List (Job V)} (hp : p.stage = .start)
    (hgo : (p.withPage w).graph.letsGo { id := p.document.scopeId } = true)
    (hjobs : (p.rebuild (p.withPage w)).1.stage = .running jobs)
    (hrun : Job.Interleaves e (jobs, (p.rebuild (p.withPage w)).2) (jobs', w')) :
    Interleaves e (p, w) ({ p with stage := .running jobs' }, w') := by
  have henter : p.enter { id := p.document.scopeId } (p.withPage w) =
      ({ p with stage := .running jobs }, (p.rebuild (p.withPage w)).2) := by
    unfold enter
    rw [if_pos hgo, ← PreviewStage.running.inj hjobs]
    rfl
  have hfirst : Moves e (p, w) ({ p with stage := .running jobs }, (p.rebuild (p.withPage w)).2) := by
    rw [← henter]
    exact .start hp
  refine Relation.ReflTransGen.head hfirst ?_
  generalize hend : (jobs', w') = b at hrun
  induction hrun generalizing jobs' w' with
  | refl =>
    obtain ⟨rfl, rfl⟩ := Prod.mk.inj hend
    exact Relation.ReflTransGen.refl
  | @tail b c _ hmove ih =>
    subst hend
    obtain ⟨jobs₁, w₁⟩ := b
    exact (ih rfl).tail (.job rfl hmove)

/-- A reading view that goes on at once evaluates its fragments one after the other. -/
theorem run_eq {jobs : List (Job V)} (hp : p.stage = .start)
    (hgo : (p.withPage w).graph.letsGo { id := p.document.scopeId } = true)
    (hjobs : (p.rebuild (p.withPage w)).1.stage = .running jobs) :
    p.run e w = ({ p with stage := .running (Job.runAll e jobs (p.rebuild (p.withPage w)).2).1 },
      (Job.runAll e jobs (p.rebuild (p.withPage w)).2).2) := by
  have henter : p.enter { id := p.document.scopeId } (p.withPage w) = p.rebuild (p.withPage w) := by
    unfold enter
    rw [if_pos hgo]
  unfold withPage at henter
  unfold run
  simp only [hp, henter]
  unfold withPage at hjobs
  rw [hjobs]
  rfl

/-- A reading view that gets all its outputs gets those of its fragments evaluated one after the other,
and leaves the scopes that these leave. -/
theorem outputs?_eq_run {exports : String → Except Error (Exports V)}
    {outputs : List (FragmentKind × FragmentOutput V)} (hp : p.stage = .start)
    (hw : w.graph.Reachable) (hready : e.componentsReady w = true)
    (hruns : e.loader.RunsCode w.desk exports) (hrun : Interleaves e (p, w) (q, w'))
    (houtputs : q.outputs? = some outputs) :
    (p.run e w).1.outputs? = some outputs ∧
      ∀ id, (p.run e w).2.graph.scope? id = w'.graph.scope? id := by
  have hunder := Under.of_interleaves hp hrun
  cases hunder with
  | start =>
    unfold outputs? at houtputs
    rw [hp] at houtputs
    contradiction
  | waiting _ => contradiction
  | @running jobs jobs' _ hgo hjobs hjobsRun =>
    have hpage : (p.withPage w).graph.Reachable := .apply (.child _ _) hw
    obtain ⟨jobs₀, hjobs₀, hchained, hstart⟩ := chained_rebuild p (p.withPage w) hpage
    obtain rfl := PreviewStage.running.inj (hjobs₀.symm.trans hjobs)
    have hover : ∀ j ∈ jobs', j.stage.over = true := over_of_mapM_eq_some houtputs
    -- Making the scopes touches neither the desk nor the coordinator.
    have hruns' : e.loader.RunsCode (p.rebuild (p.withPage w)).2.desk exports := hruns
    have hready' : e.componentsReady (p.rebuild (p.withPage w)).2 = true := hready
    have hsame := runAll_eq_of_interleaves hruns' hchained hready' hstart hjobsRun hover
    rw [run_eq hp hgo hjobs]
    exact ⟨hsame.1.trans houtputs, hsame.2⟩

/-! ### A reading view of three fragments -/

/-- What a module exports tells of its last letter alone. -/
def lastLetter (code : String) : Exports String :=
  let letter := String.singleton (code.toList.getLast?.getD ' ')
  [("a", letter), ("default", letter)]

def letterHost : Host String where
  evaluate urls url :=
    match urls.code? url with
    | some code => .ok (lastLetter code)
    | none => .error (.evaluation ("Nothing at " ++ url) none)
  call function := .ok (function ++ "()")
  display value := value

def letterEvaluator : Evaluator String :=
  { loader := { host := letterHost, transpiler := fun source _ => .ok source } }

theorem lastLetter_append {s : String} (hs : s.toList.getLast? = some '\n') (code : String) :
    lastLetter (s ++ code) = lastLetter ("\n" ++ code) := by
  have hbreak : "\n".toList.getLast? = some '\n' := rfl
  unfold lastLetter
  rw [String.toList_append, String.toList_append, List.getLast?_append, List.getLast?_append, hs, hbreak]

theorem lastLetter_freshCode (l : Loader V) (n : Nat) (code : String) :
    lastLetter (l.freshCode n code) = lastLetter ("\n" ++ code) := by
  have hbreaks : "\n\n".toList.getLast? = some '\n' := rfl
  refine lastLetter_append ?_ code
  rw [String.toList_append, List.getLast?_append, hbreaks]
  rfl

theorem runsCode_letter (d : Desk) :
    letterEvaluator.loader.RunsCode d fun code => .ok (lastLetter ("\n" ++ code)) := by
  have hevaluate : ∀ t url code, t.code? url = some code →
      letterEvaluator.loader.host.evaluate t url = .ok (lastLetter code) := by
    intro t url code hcode
    simp only [letterEvaluator, letterHost, hcode]
  refine Loader.runsCode_of_table rfl rfl hevaluate ?_
  intro n code
  rw [lastLetter_freshCode]

def sample : Preview String where
  document := .file "a.md"
  text := "```ldjs\nexport const a = b\n```\n\n`ldjs: a`\n\n```ldsh:a\nx\n```\n"

def sampleWorld : World String := { graph := .new, desk := { store := default } }

def sampleJobs : List (Job String) × ScopeGraph String :=
  chain sample.document.scopeId 0 sample.document.scopeId (Document.scan sample.text none)
    ((sample.withPage sampleWorld).graph.modify sample.document.scopeId
      fun s => { s with children := [] })

theorem rebuild_sample : sample.rebuild (sample.withPage sampleWorld) =
    ({ sample with stage := .running sampleJobs.1 }, { sampleWorld with graph := sampleJobs.2 }) := by
  have hpage : (sample.withPage sampleWorld).graph.scope? sample.document.scopeId =
      some { parent := some rootScopeId, birth := 1 } := rfl
  unfold rebuild
  dsimp only
  rw [ScopeGraph.disposeDescendants_of_childless hpage rfl]
  rfl

/-- All fragments begin; then each goes on to its end. -/
def sampleEnd : List (Job String) × World String :=
  let (jobs, w) := Job.beginAll letterEvaluator sampleJobs.1 { sampleWorld with graph := sampleJobs.2 }
  Job.runAll letterEvaluator jobs w

theorem interleaves_sample : Interleaves letterEvaluator (sample, sampleWorld)
    ({ sample with stage := .running sampleEnd.1 }, sampleEnd.2) := by
  have hstage : (sample.rebuild (sample.withPage sampleWorld)).1.stage = .running sampleJobs.1 := by
    rw [rebuild_sample]
  refine interleaves_of_running rfl rfl hstage ?_
  rw [rebuild_sample]
  have hstart : ∀ j ∈ sampleJobs.1, j.stage = .start := by
    intro j hj
    obtain ⟨i, hi⟩ := List.mem_iff_getElem?.1 hj
    unfold sampleJobs at hi
    rw [getElem?_chain, Option.map_eq_some_iff] at hi
    obtain ⟨f, -, rfl⟩ := hi
    rfl
  exact (interleaves_beginAll hstart _).trans (interleaves_runAll _ _)

theorem outputs?_sample : ({ sample with stage := .running sampleEnd.1 } : Preview String).outputs? =
    some [(.blockStatement, .published ["a", "default"]), (.inlineExpression, .text "a()"),
      (.blockMarkup, .component "b" "x")] := by
  decide +kernel

theorem outputs?_eq_run_sample :
    sample.stage = .start ∧ sampleWorld.graph.Reachable ∧
      letterEvaluator.componentsReady sampleWorld = true ∧
      letterEvaluator.loader.RunsCode sampleWorld.desk (fun code => .ok (lastLetter ("\n" ++ code))) ∧
      Interleaves letterEvaluator (sample, sampleWorld)
        ({ sample with stage := .running sampleEnd.1 }, sampleEnd.2) ∧
      (sample.run letterEvaluator sampleWorld).1.outputs? =
        some [(.blockStatement, .published ["a", "default"]), (.inlineExpression, .text "a()"),
          (.blockMarkup, .component "b" "x")] ∧
      ∀ id, (sample.run letterEvaluator sampleWorld).2.graph.scope? id = sampleEnd.2.graph.scope? id :=
  ⟨rfl, .new, rfl, runsCode_letter _, interleaves_sample,
    outputs?_eq_run rfl .new rfl (runsCode_letter _) interleaves_sample outputs?_sample⟩

end LiveNotes.Preview
