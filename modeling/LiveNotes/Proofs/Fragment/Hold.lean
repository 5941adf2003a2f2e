import LiveNotes.Proofs.Fragment.Turn
import LiveNotes.Proofs.Scope.Block

/-! How long statements keep the scope they write blocked. The block belongs to the scope and not to the
evaluation that asked for it; so it lasts until the first evaluation of these that ends, or until the
scope is removed, and is then gone for all others. -/

namespace LiveNotes

variable {V : Type}

/-- Statements that have blocked their scope and are not done. -/
def Stage.holds : Stage V → Bool
  | .statementsWait _ => true
  | .statementsImport _ => true
  | _ => false

/-- Evaluations in the order they were asked for, of one pass or of many, and what they are in. -/
abbrev Evaluations (V : Type) := List (Job V) × World V

namespace Evaluations

inductive Event (V : Type) where
  | ask (kind : FragmentKind) (content : String) (context : FragmentContext)
  /-- An evaluation goes on by a stage. -/
  | advance (k : Nat)
  /-- An evaluation goes on with its wait. -/
  | climb (k count : Nat)
  /-- The graph is changed from outside of evaluations. -/
  | operate (op : ScopeGraph.Operation V)
  | load (desk : Desk) (coordinator : Coordinator)

def Event.apply (e : Evaluator V) : Event V → Evaluations V → Evaluations V
  | .ask kind content context, s => (s.1 ++ [⟨kind, content, context, .start⟩], s.2)
  | .advance k, s =>
    match s.1[k]? with
    | none => s
    | some j =>
      match e.step j s.2 with
      | none => s
      | some (stage, w) => (s.1.set k { j with stage := stage }, w)
  | .climb k count, s =>
    (s.1.modify k fun j => { j with stage := j.stage.climb s.2.graph count }, s.2)
  | .operate op, s => (s.1, { s.2 with graph := op.apply s.2.graph })
  | .load desk coordinator, s => (s.1, { s.2 with desk := desk, coordinator := coordinator })

def run (e : Evaluator V) (events : List (Event V)) (s : Evaluations V) : Evaluations V :=
  events.foldl (fun s event => event.apply e s) s

/-- A property of the state before, between and after some events. -/
def Throughout (e : Evaluator V) (P : Evaluations V → Prop) : List (Event V) → Evaluations V → Prop
  | [], s => P s
  | event :: events, s => P s ∧ Throughout e P events (event.apply e s)

/-- An evaluation has blocked its scope and is not done. -/
def Holds (k : Nat) (s : Evaluations V) : Prop := ∃ j, s.1[k]? = some j ∧ j.stage.holds = true

/-- A scope is blocked, and no wait gets past it. -/
def Guarded (id : String) (s : Evaluations V) : Prop :=
  s.2.graph.isBlocked id = true ∧
    ∀ wait count, s.2.graph.Current wait → Above s.2.graph.parent? wait.id id →
      ∃ wait', s.2.graph.goOn count wait = some wait' ∧ Above s.2.graph.parent? wait'.id id

/-- Something else than the end of the evaluation `k` takes the block from a scope: the end of another
one that writes the scope, or an operation from outside. -/
def Event.Releases (e : Evaluator V) (k : Nat) (id : String) (s : Evaluations V) : Event V → Prop
  | .advance i =>
    i ≠ k ∧ ∃ j stage w, s.1[i]? = some j ∧ j.context.write = id ∧ j.stage.holds = true ∧
      e.step j s.2 = some (stage, w) ∧ stage.over = true
  | .operate op => op.Releases s.2.graph id
  | _ => False

def Unreleased (e : Evaluator V) (k : Nat) (id : String) : List (Event V) → Evaluations V → Prop
  | [], _ => True
  | event :: events, s => ¬ event.Releases e k id s ∧ Unreleased e k id events (event.apply e s)

/-! ### Stages -/

variable {e : Evaluator V} {j : Job V} {w w' : World V} {stage : Stage V} {id : String}

theorem graph_compile {read source : String} {next : String → Stage V}
    {failed : Error → World V → Stage V × World V} (h : ∀ err, (failed err w).2.graph = w.graph) :
    (e.compile w read source next failed).2.graph = w.graph := by
  unfold Evaluator.compile
  split
  · exact h _
  · rfl

theorem graph_showBlock (j : Job V) (w : World V) : (e.showBlock j w).2.graph = w.graph := by
  unfold Evaluator.showBlock
  split
  · split
    · rfl
    · rfl
  · exact graph_compile fun _ => rfl

theorem graph_firstStage (hk : j.kind ≠ .blockStatement) (w : World V) :
    (e.firstStage j w).2.graph = w.graph := by
  unfold Evaluator.firstStage
  split
  · split
    · rfl
    · rfl
  · rfl
  · contradiction
  · split
    · rfl
    · rfl

/-- Only statements change the graph. -/
theorem graph_of_step (hbegun : j.stage.begun = true) (hholds : j.stage.holds = false)
    (h : e.step j w = some (stage, w')) : w'.graph = w.graph := by
  unfold Evaluator.step at h
  cases hs : j.stage with
  | start =>
    rw [hs] at hbegun
    contradiction
  | statementsWait wait =>
    rw [hs] at hholds
    contradiction
  | statementsImport url =>
    rw [hs] at hholds
    contradiction
  | spanWaitsForComponents =>
    rw [hs] at h
    dsimp only at h
    split at h
    · have hgraph : (e.compile w j.context.read (Transpile.markupModule j.content) Stage.spanImports
          fun err w => (.done (Evaluator.lineError err), w)).2.graph = w.graph :=
        graph_compile fun _ => rfl
      rwa [Option.some.inj h] at hgraph
    · contradiction
  | blockWaits wait =>
    rw [hs] at h
    dsimp only at h
    split at h
    · contradiction
    · have hgraph := graph_showBlock (e := e) j w
      rwa [Option.some.inj h] at hgraph
  | _ => grind [Evaluator.register, Evaluator.importUrl]

theorem isBlocked_publish (write id : String) (found : Exports V) (g : ScopeGraph V) :
    (((g.reset write).setMany write found).unblock write).isBlocked id =
      if id = write then false else g.isBlocked id := by
  rw [ScopeGraph.isBlocked_unblock]
  split
  · rfl
  · exact (ScopeGraph.isBlocked_rebind _ write _ id).trans (ScopeGraph.isBlocked_rebind g write _ id)

/-- Statements at work leave all blocks as they are until they end, and then release their scope. -/
theorem isBlocked_of_holds (hholds : j.stage.holds = true) (h : e.step j w = some (stage, w'))
    (id : String) :
    w'.graph.isBlocked id =
      if id = j.context.write ∧ stage.over = true then false else w.graph.isBlocked id := by
  unfold Evaluator.step at h
  cases hs : j.stage with
  | statementsWait wait =>
    rw [hs] at h
    dsimp only at h
    split at h
    · contradiction
    · unfold Evaluator.compile at h
      split at h
      · obtain ⟨rfl, rfl⟩ := Prod.mk.inj (Option.some.inj h)
        simp [ScopeGraph.isBlocked_unblock, Stage.over]
      · obtain ⟨rfl, rfl⟩ := Prod.mk.inj (Option.some.inj h)
        simp [Stage.over]
  | statementsImport url =>
    rw [hs] at h
    dsimp only at h
    split at h
    · obtain ⟨rfl, rfl⟩ := Prod.mk.inj (Option.some.inj h)
      simp [ScopeGraph.isBlocked_unblock, Evaluator.importUrl, Stage.over]
    · obtain ⟨rfl, rfl⟩ := Prod.mk.inj (Option.some.inj h)
      simp [isBlocked_publish, Evaluator.importUrl, Stage.over]
  | _ =>
    rw [hs] at hholds
    contradiction

theorem isBlocked_of_start (hs : j.stage = .start) (h : e.step j w = some (stage, w')) (id : String) :
    w'.graph.isBlocked id =
      if id = j.context.write ∧ j.kind = .blockStatement then w.graph.isLive id
      else w.graph.isBlocked id := by
  unfold Evaluator.step at h
  rw [hs] at h
  by_cases hk : j.kind = .blockStatement
  · unfold Evaluator.firstStage at h
    rw [hk] at h
    obtain ⟨rfl, rfl⟩ := Prod.mk.inj (Option.some.inj h)
    simp [ScopeGraph.isBlocked_block, hk]
  · have hgraph := graph_firstStage (e := e) hk w
    rw [Option.some.inj h] at hgraph
    rw [hgraph, if_neg fun hand => hk hand.2]

/-- No stage of another evaluation takes a block away, except the end of statements that write the
scope. -/
theorem isBlocked_of_step (hid : w.graph.isBlocked id = true) (h : e.step j w = some (stage, w')) :
    w'.graph.isBlocked id = true ↔
      ¬ (j.context.write = id ∧ j.stage.holds = true ∧ stage.over = true) := by
  cases hholds : j.stage.holds with
  | true =>
    rw [isBlocked_of_holds hholds h id, hid]
    by_cases hends : id = j.context.write ∧ stage.over = true
    · rw [if_pos hends]
      simp [hends.1, hends.2]
    · rw [if_neg hends]
      simp only [true_and, true_iff]
      exact fun hand => hends ⟨hand.1.symm, hand.2⟩
  | false =>
    simp only [Bool.false_eq_true, false_and, and_false, not_false_eq_true, iff_true]
    cases hbegun : j.stage.begun with
    | true => rw [graph_of_step hbegun hholds h, hid]
    | false =>
      have hs := Stage.eq_start_of_begun_eq_false hbegun
      rw [isBlocked_of_start hs h id, hid, ScopeGraph.isLive_of_isBlocked hid, ite_self]

/-! ### Events -/

variable {k : Nat} {s : Evaluations V}

theorem apply_advance_of_none (h : s.1[k]? = none) : (Event.advance k).apply e s = s := by
  unfold Event.apply
  simp only [h]

theorem apply_advance_of_stuck (hj : s.1[k]? = some j) (h : e.step j s.2 = none) :
    (Event.advance k).apply e s = s := by
  unfold Event.apply
  simp only [hj, h]

theorem apply_advance (hj : s.1[k]? = some j) (h : e.step j s.2 = some (stage, w)) :
    (Event.advance k).apply e s = (s.1.set k { j with stage := stage }, w) := by
  unfold Event.apply
  simp only [hj, h]

theorem not_over_of_holds (hnext : Holds k ((Event.advance k).apply e s)) (hj : s.1[k]? = some j)
    (hstep : e.step j s.2 = some (stage, w)) : stage.over = false := by
  obtain ⟨j', hj', hholds⟩ := hnext
  rw [apply_advance hj hstep, List.getElem?_set_self (List.getElem?_eq_some_iff.1 hj).1,
    Option.some.injEq] at hj'
  subst hj'
  cases stage with
  | done output => contradiction
  | _ => rfl

/-- A blocked scope stays blocked in an event that does not release it, and in no other. -/
theorem isBlocked_apply_iff (event : Event V) (hnext : Holds k (event.apply e s))
    (hid : s.2.graph.isBlocked id = true) :
    (event.apply e s).2.graph.isBlocked id = true ↔ ¬ event.Releases e k id s := by
  cases event with
  | ask kind content context => exact ⟨fun _ hr => hr, fun _ => hid⟩
  | climb i count => exact ⟨fun _ hr => hr, fun _ => hid⟩
  | load desk coordinator => exact ⟨fun _ hr => hr, fun _ => hid⟩
  | operate op => exact ScopeGraph.isBlocked_apply_iff op hid
  | advance i =>
    cases hj : s.1[i]? with
    | none =>
      rw [apply_advance_of_none hj]
      refine ⟨?_, fun _ => hid⟩
      rintro - ⟨-, j, stage, w, hj', -⟩
      rw [hj] at hj'
      contradiction
    | some j =>
      cases hstep : e.step j s.2 with
      | none =>
        rw [apply_advance_of_stuck hj hstep]
        refine ⟨?_, fun _ => hid⟩
        rintro - ⟨-, j', stage, w, hj', -, -, hstep', -⟩
        obtain rfl := Option.some.inj (hj.symm.trans hj')
        rw [hstep] at hstep'
        contradiction
      | some next =>
        obtain ⟨stage, w⟩ := next
        rw [apply_advance hj hstep]
        -- The evaluation itself is not done after its stage, so that another one has ended.
        refine (isBlocked_of_step hid hstep).trans (not_congr ⟨?_, ?_⟩)
        · rintro ⟨hw, hholds, hover⟩
          refine ⟨?_, j, stage, w, hj, hw, hholds, hstep, hover⟩
          rintro rfl
          rw [not_over_of_holds hnext hj hstep] at hover
          contradiction
        · rintro ⟨-, j', stage', w', hj', hw, hholds, hstep', hover⟩
          obtain rfl := Option.some.inj (hj.symm.trans hj')
          obtain ⟨rfl, rfl⟩ := Prod.mk.inj (Option.some.inj (hstep.symm.trans hstep'))
          exact ⟨hw, hholds, hover⟩

theorem guarded_iff : Guarded id s ↔ s.2.graph.isBlocked id = true := by
  refine ⟨fun h => h.1, fun h => ⟨h, ?_⟩⟩
  intro wait count hcurrent habove
  exact ScopeGraph.goOn_of_isBlocked hcurrent h habove count

theorem Throughout.here {P : Evaluations V → Prop} {events : List (Event V)}
    (h : Throughout e P events s) : P s := by
  cases events with
  | nil => exact h
  | cons event events => exact h.1

/-- A scope that is blocked stays so for as long as an evaluation holds, if nothing else releases it. -/
theorem throughout_guarded_iff {events : List (Event V)} (h : Throughout e (Holds k) events s) :
    Throughout e (Guarded id) events s ↔
      s.2.graph.isBlocked id = true ∧ Unreleased e k id events s := by
  induction events generalizing s with
  | nil =>
    refine guarded_iff.trans ⟨fun hid => ⟨hid, trivial⟩, fun hid => hid.1⟩
  | cons event events ih =>
    have hstep := ih h.2
    constructor
    · rintro ⟨hhere, hrest⟩
      have hid := guarded_iff.1 hhere
      obtain ⟨hnext, hunreleased⟩ := hstep.1 hrest
      exact ⟨hid, (isBlocked_apply_iff event h.2.here hid).1 hnext, hunreleased⟩
    · rintro ⟨hid, hkept, hunreleased⟩
      have hnext := (isBlocked_apply_iff event h.2.here hid).2 hkept
      exact ⟨guarded_iff.2 hid, hstep.2 ⟨hnext, hunreleased⟩⟩

/-- From the moment an evaluation has blocked the scope it writes, and for as long as it holds, the scope
is blocked and no wait gets past it, exactly when the scope was there and nothing else releases it. -/
theorem guarded_while_held_iff {events : List (Event V)} (hj : s.1[k]? = some j)
    (hkind : j.kind = .blockStatement) (hs : j.stage = .start)
    (h : Throughout e (Holds k) events ((Event.advance k).apply e s)) :
    Throughout e (Guarded j.context.write) events ((Event.advance k).apply e s) ↔
      s.2.graph.isLive j.context.write = true ∧
        Unreleased e k j.context.write events ((Event.advance k).apply e s) := by
  have hstep : e.step j s.2 = some (e.firstStage j s.2) := by
    unfold Evaluator.step
    rw [hs]
  have hblocked : ((Event.advance k).apply e s).2.graph.isBlocked j.context.write =
      s.2.graph.isLive j.context.write := by
    rw [apply_advance hj hstep]
    exact (isBlocked_of_start hs hstep j.context.write).trans (if_pos ⟨rfl, hkind⟩)
  rw [throughout_guarded_iff h, hblocked]

/-! ### Two evaluations of one fragment -/

def brokenEvaluator : Evaluator String :=
  { loader := { host := staticHost none, transpiler := fun _ _ => .error ⟨.parse, "a.md", []⟩ } }

def twoScopes : World String where
  graph := ((ScopeGraph.new.child rootScopeId "page/a.md").child "page/a.md" "page/a.md/0").child
    "page/a.md/0" "page/a.md/1"
  desk := { store := default }

def second : FragmentContext := ⟨"page/a.md/0", "page/a.md/1", none⟩

/-- The second fragment is evaluated and blocks its scope; then it is asked for anew. -/
def askedAgain : Evaluations String :=
  run brokenEvaluator
    [.ask .blockStatement "a" second, .advance 0, .ask .blockStatement "a" second] ([], twoScopes)

theorem holds_askedAgain (event : Event String) (h : event = .climb 1 4 ∨ event = .advance 0) :
    Throughout brokenEvaluator (Holds 1) [event]
      ((Event.advance 1).apply brokenEvaluator askedAgain) := by
  rcases h with rfl | rfl
  · exact ⟨⟨_, rfl, rfl⟩, ⟨_, rfl, rfl⟩⟩
  · exact ⟨⟨_, rfl, rfl⟩, ⟨_, rfl, rfl⟩⟩

theorem guarded_while_held_iff_askedAgain :
    askedAgain.1[1]? = some ⟨.blockStatement, "a", second, .start⟩ ∧
      Throughout brokenEvaluator (Holds 1) [.climb 1 4]
        ((Event.advance 1).apply brokenEvaluator askedAgain) ∧
      (Throughout brokenEvaluator (Guarded second.write) [.climb 1 4]
          ((Event.advance 1).apply brokenEvaluator askedAgain) ↔
        askedAgain.2.graph.isLive second.write = true ∧
          Unreleased brokenEvaluator 1 second.write [.climb 1 4]
            ((Event.advance 1).apply brokenEvaluator askedAgain)) :=
  ⟨rfl, holds_askedAgain _ (.inl rfl),
    guarded_while_held_iff rfl rfl rfl (holds_askedAgain _ (.inl rfl))⟩

/-- The first evaluation fails and opens the scope; the second one is not done, and what reads the scope
need not wait for it. -/
theorem block_lost :
    askedAgain.1[1]? = some ⟨.blockStatement, "a", second, .start⟩ ∧
      askedAgain.2.graph.isLive second.write = true ∧
      Throughout brokenEvaluator (Holds 1) [.advance 0]
        ((Event.advance 1).apply brokenEvaluator askedAgain) ∧
      ¬ Throughout brokenEvaluator (fun s => s.2.graph.isBlocked second.write = true) [.advance 0]
        ((Event.advance 1).apply brokenEvaluator askedAgain) ∧
      (run brokenEvaluator [.advance 1, .advance 0] askedAgain).2.graph.await? { id := second.write } =
        none := by
  refine ⟨rfl, rfl, holds_askedAgain _ (.inr rfl), ?_, by decide +kernel⟩
  rintro ⟨-, hend⟩
  have hblocked :
      (run brokenEvaluator [.advance 1, .advance 0] askedAgain).2.graph.isBlocked second.write = true :=
    hend
  exact absurd hblocked (by decide +kernel)

end Evaluations

end LiveNotes
