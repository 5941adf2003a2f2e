import LiveNotes.Proofs.Fragment.Interleaving

/-! Jobs that go on one after the other. Each gets to its end, when what it reads from can come open at
all; and since that is an order like any other, it comes to the same as all of them do. -/

namespace LiveNotes

variable {V : Type}

/-- How many stages a job may still go through. -/
def Stage.left : Stage V → Nat
  | .start => 4
  | .expressionWaits _ _ => 3
  | .expressionImports _ => 2
  | .expressionCalls _ => 1
  | .spanWaitsForComponents => 3
  | .spanImports _ => 2
  | .spanWaits _ _ => 1
  | .statementsWait _ => 2
  | .statementsImport _ => 1
  | .blockWaitsForComponents => 3
  | .blockWaits _ => 2
  | .blockImports _ => 1
  | .done _ => 0

theorem Stage.left_le (s : Stage V) : s.left ≤ 4 := by
  cases s with
  | _ => simp [left]

theorem Stage.begun_of_left_lt {s : Stage V} (h : s.left < 4) : s.begun = true := by
  cases s with
  | start => exact absurd h (Nat.lt_irrefl 4)
  | _ => rfl

namespace Evaluator

variable {e : Evaluator V} {j : Job V} {w w' : World V} {stage : Stage V}

theorem left_compile_le {read source : String} {next : String → Stage V}
    {failed : Error → World V → Stage V × World V} {n : Nat} (hnext : ∀ url, (next url).left ≤ n)
    (hfailed : ∀ err w, (failed err w).1.left ≤ n) :
    (e.compile w read source next failed).1.left ≤ n := by
  unfold compile
  split
  · exact hfailed _ w
  · exact hnext _

theorem left_firstStage_le (j : Job V) (w : World V) : (e.firstStage j w).1.left ≤ 3 := by
  unfold firstStage
  split
  · split
    · exact Nat.zero_le 3
    · exact Nat.le_refl 3
  · exact Nat.le_refl 3
  · exact Nat.le_succ 2
  · split
    · exact Nat.zero_le 3
    · exact Nat.le_refl 3

theorem left_showBlock_le (j : Job V) (w : World V) : (e.showBlock j w).1.left ≤ 1 := by
  unfold showBlock
  split
  · split
    · exact Nat.zero_le 1
    · exact Nat.zero_le 1
  · exact left_compile_le (fun _ => Nat.le_refl 1) fun _ _ => Nat.zero_le 1

theorem left_lt_of_step (h : e.step j w = some (stage, w')) : stage.left < j.stage.left := by
  unfold step at h
  cases hs : j.stage with
  | start =>
    rw [hs, Option.some.injEq] at h
    have hleft := left_firstStage_le (e := e) j w
    rw [h] at hleft
    exact Nat.lt_succ_of_le hleft
  | spanWaitsForComponents =>
    rw [hs] at h
    dsimp only at h
    split at h
    · have hleft : (e.compile w j.context.read (Transpile.markupModule j.content) Stage.spanImports
          fun err w => (.done (lineError err), w)).1.left ≤ 2 :=
        left_compile_le (fun _ => Nat.le_refl 2) fun _ _ => Nat.zero_le 2
      rw [Option.some.inj h] at hleft
      exact Nat.lt_succ_of_le hleft
    · contradiction
  | statementsWait wait =>
    rw [hs] at h
    dsimp only at h
    split at h
    · contradiction
    · have hleft : (e.compile w j.context.read j.content Stage.statementsImport
          (statementsFail j.context.write)).1.left ≤ 1 :=
        left_compile_le (fun _ => Nat.le_refl 1) fun _ _ => Nat.zero_le 1
      rw [Option.some.inj h] at hleft
      exact Nat.lt_succ_of_le hleft
  | blockWaits wait =>
    rw [hs] at h
    dsimp only at h
    split at h
    · contradiction
    · have hleft := left_showBlock_le (e := e) j w
      rw [Option.some.inj h] at hleft
      exact Nat.lt_succ_of_le hleft
  | _ => grind [statementsFail, publish, Stage.left]

end Evaluator

theorem Evaluator.begun_of_step {e : Evaluator V} {j : Job V} {w w' : World V} {stage : Stage V}
    (h : e.step j w = some (stage, w')) : stage.begun = true :=
  Stage.begun_of_left_lt (Nat.lt_of_lt_of_le (Evaluator.left_lt_of_step h) j.stage.left_le)

theorem Stage.begun_climb {g : ScopeGraph V} {count : Nat} {s : Stage V} (h : s.begun = true) :
    (s.climb g count).begun = true := by
  cases s with
  | start => exact h
  | _ => rfl

/-! ### The order of the list is an order -/

variable {e : Evaluator V} {exports : String → Except Error (Exports V)} {g₀ : ScopeGraph V} {d₀ : Desk}
  {before after jobs jobs' : List (Job V)} {j : Job V} {w w' : World V}

theorem interleaves_runFor (hbefore : ∀ b ∈ before, b.stage.begun = true) (j : Job V)
    (after : List (Job V)) (w : World V) (count : Nat) :
    Job.Interleaves e (before ++ j :: after, w)
      (before ++ (j.runFor e count w).1 :: after, (j.runFor e count w).2) := by
  induction count generalizing j w with
  | zero => exact Relation.ReflTransGen.refl
  | succ count ih =>
    unfold Job.runFor
    cases hstep : e.step j w with
    | none =>
      refine Relation.ReflTransGen.single (.advance ?_ fun _ => hbefore)
      dsimp only
      rw [Stage.hold_eq_climb]
      exact .climb _
    | some next =>
      obtain ⟨stage, w'⟩ := next
      exact Relation.ReflTransGen.head (.advance (.step hstep) fun _ => hbefore)
        (ih { j with stage := stage } w')

theorem begun_runFor {count : Nat} (h : j.stage.begun = true) :
    (j.runFor e count w).1.stage.begun = true := by
  induction count generalizing j w with
  | zero => exact h
  | succ count ih =>
    unfold Job.runFor
    cases hstep : e.step j w with
    | none =>
      dsimp only
      rw [Stage.hold_eq_climb]
      exact Stage.begun_climb h
    | some next => exact ih (Evaluator.begun_of_step hstep)

theorem begun_run : (j.run e w).1.stage.begun = true := by
  unfold Job.run Job.stageBound Job.runFor
  cases hstep : e.step j w with
  | none =>
    dsimp only
    rw [Stage.hold_eq_climb]
    refine Stage.begun_climb ?_
    by_contra hbegun
    have hs : j.stage = .start := Stage.eq_start_of_begun_eq_false (Bool.not_eq_true _ ▸ hbegun)
    unfold Evaluator.step at hstep
    rw [hs] at hstep
    contradiction
  | some next => exact begun_runFor (Evaluator.begun_of_step hstep)

theorem interleaves_runAll_append (hbefore : ∀ b ∈ before, b.stage.begun = true) (jobs : List (Job V)) :
    Job.Interleaves e (before ++ jobs, w)
      (before ++ (Job.runAll e jobs w).1, (Job.runAll e jobs w).2) := by
  induction jobs generalizing before w with
  | nil => exact Relation.ReflTransGen.refl
  | cons j jobs ih =>
    have hfirst : Job.Interleaves e (before ++ j :: jobs, w)
        (before ++ (j.run e w).1 :: jobs, (j.run e w).2) :=
      interleaves_runFor hbefore j jobs w Job.stageBound
    have hbegun : ∀ b ∈ before ++ [(j.run e w).1], b.stage.begun = true := by
      intro b hb
      rcases List.mem_append.1 hb with hb | hb
      · exact hbefore b hb
      · rw [List.mem_singleton.1 hb]
        exact begun_run
    have hrest := ih (w := (j.run e w).2) hbegun
    rw [List.append_assoc, List.append_assoc] at hrest
    exact hfirst.trans hrest

theorem interleaves_runAll (jobs : List (Job V)) (w : World V) :
    Job.Interleaves e (jobs, w) (Job.runAll e jobs w) :=
  interleaves_runAll_append (fun _ hb => absurd hb List.not_mem_nil) jobs

def Job.beginAll (e : Evaluator V) : List (Job V) → World V → List (Job V) × World V
  | [], w => ([], w)
  | j :: js, w =>
    let (stage, w) := e.firstStage j w
    let (js, w) := beginAll e js w
    ({ j with stage := stage } :: js, w)

theorem interleaves_beginAll_append (hbefore : ∀ b ∈ before, b.stage.begun = true)
    (hstart : ∀ j ∈ jobs, j.stage = .start) :
    Job.Interleaves e (before ++ jobs, w)
      (before ++ (Job.beginAll e jobs w).1, (Job.beginAll e jobs w).2) := by
  induction jobs generalizing before w with
  | nil => exact Relation.ReflTransGen.refl
  | cons j jobs ih =>
    have hstep : e.step j w = some (e.firstStage j w) := by
      unfold Evaluator.step
      rw [hstart j List.mem_cons_self]
    have hbegun : ∀ b ∈ before ++ [{ j with stage := (e.firstStage j w).1 }], b.stage.begun = true := by
      intro b hb
      rcases List.mem_append.1 hb with hb | hb
      · exact hbefore b hb
      · rw [List.mem_singleton.1 hb]
        exact Evaluator.begun_of_step hstep
    have hrest := ih (w := (e.firstStage j w).2) hbegun fun k hk => hstart k (List.mem_cons_of_mem _ hk)
    rw [List.append_assoc, List.append_assoc] at hrest
    exact Relation.ReflTransGen.head (.advance (.step hstep) fun _ => hbefore) hrest

/-- All jobs may begin before any of them goes on. -/
theorem interleaves_beginAll (hstart : ∀ j ∈ jobs, j.stage = .start) (w : World V) :
    Job.Interleaves e (jobs, w) (Job.beginAll e jobs w) :=
  interleaves_beginAll_append (fun _ hb => absurd hb List.not_mem_nil) hstart

/-! ### Each job gets to its end -/

namespace Coherent

/-- A wait is over when the jobs in front are done. -/
theorem await?_eq_none (h : Coherent e exports g₀ d₀ (before ++ j :: after) w)
    (hchained : Chained g₀ ((before ++ j :: after).map (·.context)))
    (hdone : ∀ b ∈ before, b.stage.over = true) {wait : ScopeWait}
    (hclimbing : Job.Climbing g₀ (Passable e exports g₀ (before ++ j :: after)) j.context.read wait)
    (hclear : Clear g₀.parent? (Job.settleAll e exports (before ++ j :: after) g₀).Open j.context.read) :
    w.graph.await? wait = none := by
  refine ScopeGraph.await?_eq_none ((h.graph.current_iff wait).2 hclimbing.current) ?_
  rw [h.graph.parent?]
  refine (hclear.above hclimbing.climbed.above).mono ?_
  intro n hn hopen
  have habove : Above g₀.parent? j.context.read n := hclimbing.climbed.above.trans hn
  have hsettled : Settled g₀ (before ++ j :: after) n := by
    intro _ k hk _ hw
    rcases List.mem_append.1 hk with hk | hk
    · exact hdone k hk
    · exact absurd (hw ▸ habove) (hchained.not_above k hk)
  unfold ScopeGraph.Open ScopeGraph.isBlocked at hopen ⊢
  rwa [h.graph.scope?_of_settled hchained.nodup_write hsettled]

/-- A job in turn is over or can go on. -/
theorem over_of_step_eq_none (h : Coherent e exports g₀ d₀ (before ++ j :: after) w)
    (hchained : Chained g₀ ((before ++ j :: after).map (·.context)))
    (hdone : ∀ b ∈ before, b.stage.over = true)
    (hclear : j.Waits e exports →
      Clear g₀.parent? (Job.settleAll e exports (before ++ j :: after) g₀).Open j.context.read)
    (hstep : e.step j w = none) : j.stage.over = true := by
  have hawait : ∀ wait, j.stage.wait? = some wait → w.graph.await? wait = none := by
    intro wait hwait
    obtain ⟨hwaits, hclimbing⟩ := (h.fits j (by simp)).climbing hwait
    exact h.await?_eq_none hchained hdone hclimbing (hclear hwaits)
  unfold Evaluator.step at hstep
  cases hs : j.stage with
  | done output => rfl
  | start => simp [hs] at hstep
  | expressionWaits code wait => simp [hs, hawait wait (by rw [hs]; rfl)] at hstep
  | spanWaits factory wait => simp [hs, hawait wait (by rw [hs]; rfl)] at hstep
  | statementsWait wait => simp [hs, hawait wait (by rw [hs]; rfl)] at hstep
  | blockWaits wait => simp [hs, hawait wait (by rw [hs]; rfl)] at hstep
  | spanWaitsForComponents => simp [hs, h.ready] at hstep
  | blockWaitsForComponents => simp [hs, h.ready] at hstep
  -- What is imported or called gives a value or fails; the job goes on in both cases.
  | _ =>
    rw [hs] at hstep
    dsimp only at hstep
    split at hstep
    · contradiction
    · contradiction

/-- A job that goes on for long enough gets to its end. -/
theorem over_runFor (h : Coherent e exports g₀ d₀ (before ++ j :: after) w)
    (hruns : e.loader.RunsCode d₀ exports)
    (hchained : Chained g₀ ((before ++ j :: after).map (·.context)))
    (hdone : ∀ b ∈ before, b.stage.over = true)
    (hclear : j.Waits e exports →
      Clear g₀.parent? (Job.settleAll e exports (before ++ j :: after) g₀).Open j.context.read)
    {count : Nat} (hcount : j.stage.left < count) : (j.runFor e count w).1.stage.over = true := by
  have hbegun : ∀ b ∈ before, b.stage.begun = true := fun b hb => Stage.begun_of_over (hdone b hb)
  induction count generalizing j w with
  | zero => exact absurd hcount (Nat.not_lt_zero _)
  | succ count ih =>
    unfold Job.runFor
    cases hstep : e.step j w with
    | none =>
      have hover := h.over_of_step_eq_none hchained hdone hclear hstep
      dsimp only
      rw [Stage.hold_eq_climb]
      exact Stage.over_climb hover
    | some next =>
      obtain ⟨stage, w'⟩ := next
      -- A stage leaves fewer stages, and the scopes to be waited for as they will be.
      have hnext := h.advance hruns hchained (.step hstep) fun _ => hbegun
      refine ih hnext ?_ ?_ ?_
      · rwa [map_context_stage]
      · intro hwaits
        rw [settleAll_stage]
        exact hclear hwaits
      · exact Nat.lt_of_lt_of_le (Evaluator.left_lt_of_step hstep) (Nat.le_of_lt_succ hcount)

theorem over_runAll (h : Coherent e exports g₀ d₀ (before ++ jobs) w)
    (hruns : e.loader.RunsCode d₀ exports)
    (hchained : Chained g₀ ((before ++ jobs).map (·.context)))
    (hdone : ∀ b ∈ before, b.stage.over = true)
    (hclear : ∀ j ∈ jobs, j.Waits e exports →
      Clear g₀.parent? (Job.settleAll e exports (before ++ jobs) g₀).Open j.context.read) :
    ∀ j ∈ (Job.runAll e jobs w).1, j.stage.over = true := by
  induction jobs generalizing before w with
  | nil => exact fun j hj => absurd hj List.not_mem_nil
  | cons j jobs ih =>
    have hbegun : ∀ b ∈ before, b.stage.begun = true := fun b hb => Stage.begun_of_over (hdone b hb)
    have hover : (j.run e w).1.stage.over = true := by
      refine h.over_runFor hruns hchained hdone (hclear j List.mem_cons_self) ?_
      exact Nat.lt_of_le_of_lt j.stage.left_le (by decide)
    obtain ⟨hnext, htask⟩ :=
      h.interleaves hruns hchained (interleaves_runFor hbegun j jobs w Job.stageBound)
    have hsplit : ∀ k : Job V, before ++ k :: jobs = (before ++ [k]) ++ jobs := fun k => by simp
    intro k hk
    rcases List.mem_cons.1 hk with rfl | hk
    · exact hover
    · rw [hsplit] at hnext htask
      refine ih hnext ?_ ?_ ?_ k hk
      · rwa [map_context_of_task htask]
      · intro b hb
        rcases List.mem_append.1 hb with hb | hb
        · exact hdone b hb
        · rw [List.mem_singleton.1 hb]
          exact hover
      · intro l hl
        rw [settleAll_of_task htask]
        exact hclear l (List.mem_cons_of_mem _ hl)

theorem output?_eq (h : Coherent e exports g₀ d₀ jobs w) (hj : j ∈ jobs) (hover : j.stage.over = true) :
    j.output? = some (j.outcome e exports (Job.settleAll e exports jobs g₀)) ∧
      (j.Waits e exports → Clear g₀.parent? (Job.settleAll e exports jobs g₀).Open j.context.read) := by
  have hfits := h.fits j hj
  unfold Job.Fits at hfits
  obtain ⟨output, hs⟩ := Stage.eq_done_of_over hover
  rw [hs] at hfits
  obtain ⟨houtput, hpassed⟩ := hfits
  refine ⟨?_, fun hwaits => (hpassed hwaits).mono fun _ hfree => hfree.1⟩
  unfold Job.output?
  rw [hs, houtput]

theorem scope?_eq (h : Coherent e exports g₀ d₀ jobs w) (hchained : Chained g₀ (jobs.map (·.context)))
    (hover : ∀ j ∈ jobs, j.stage.over = true) (id : String) :
    w.graph.scope? id = (Job.settleAll e exports jobs g₀).scope? id :=
  h.graph.scope?_of_settled hchained.nodup_write fun _ j hj _ _ => hover j hj

end Coherent

/-- Jobs that have to do the same and are all done have the same outputs. -/
theorem mapM_output?_eq {final : ScopeGraph V} (htask : jobs'.map Job.task = jobs.map Job.task)
    (h : ∀ j ∈ jobs', j.output? = some (j.outcome e exports final)) :
    (jobs'.mapM fun j => j.output?.map fun o => (j.kind, o)) =
      some (jobs.map fun j => (j.kind, j.outcome e exports final)) := by
  have hoff : ∀ jobs : List (Job V), (jobs.map fun j => (j.kind, j.outcome e exports final)) =
      (jobs.map Job.task).map fun j => (j.kind, j.outcome e exports final) := by
    intro jobs
    rw [List.map_map]
    rfl
  rw [hoff jobs, ← htask, ← hoff jobs']
  clear hoff htask
  induction jobs' with
  | nil => rfl
  | cons j jobs' ih =>
    have hrest := ih fun k hk => h k (List.mem_cons_of_mem _ hk)
    rw [List.mapM_cons, h j List.mem_cons_self, hrest]
    rfl

theorem over_of_mapM_eq_some {outputs : List (FragmentKind × FragmentOutput V)}
    (h : (jobs.mapM fun j => j.output?.map fun o => (j.kind, o)) = some outputs) :
    ∀ j ∈ jobs, j.stage.over = true := by
  induction jobs generalizing outputs with
  | nil => exact fun j hj => absurd hj List.not_mem_nil
  | cons k jobs ih =>
    rw [List.mapM_cons, Option.bind_eq_bind, Option.bind_eq_some_iff] at h
    obtain ⟨output, houtput, hrest⟩ := h
    rw [Option.bind_eq_bind, Option.bind_eq_some_iff] at hrest
    obtain ⟨rest, hrest, -⟩ := hrest
    intro j hj
    rcases List.mem_cons.1 hj with rfl | hj
    · unfold Job.output? at houtput
      split at houtput
      · next hs =>
        rw [hs]
        rfl
      · contradiction
    · exact ih hrest j hj

/-- Whatever the order of jobs that get done, it comes to the same as one job after the other. -/
theorem runAll_eq_of_interleaves (hruns : e.loader.RunsCode w.desk exports)
    (hchained : Chained w.graph (jobs.map (·.context))) (hready : e.componentsReady w = true)
    (hstart : ∀ j ∈ jobs, j.stage = .start) (hrun : Job.Interleaves e (jobs, w) (jobs', w'))
    (hover : ∀ j ∈ jobs', j.stage.over = true) :
    ((Job.runAll e jobs w).1.mapM fun j => j.output?.map fun o => (j.kind, o)) =
        (jobs'.mapM fun j => j.output?.map fun o => (j.kind, o)) ∧
      ∀ id, (Job.runAll e jobs w).2.graph.scope? id = w'.graph.scope? id := by
  have hcoherent : Coherent e exports w.graph w.desk jobs w := coherent_start hstart hready
  obtain ⟨hend, htask⟩ := hcoherent.interleaves hruns hchained hrun
  obtain ⟨hend₀, htask₀⟩ := hcoherent.interleaves hruns hchained (interleaves_runAll jobs w)
  -- That the jobs get done in some order tells that all they wait for comes open.
  have hclear : ∀ j ∈ jobs, j.Waits e exports →
      Clear w.graph.parent? (Job.settleAll e exports jobs w.graph).Open j.context.read := by
    intro j hj hwaits
    have hmem : j.task ∈ jobs'.map Job.task := htask ▸ List.mem_map.2 ⟨j, hj, rfl⟩
    obtain ⟨k, hk, hkj⟩ := List.mem_map.1 hmem
    have hclear := (hend.output?_eq hk (hover k hk)).2
    rw [settleAll_of_task htask] at hclear
    have hread : k.context.read = j.context.read := congrArg (·.context.read) hkj
    rw [← hread]
    refine hclear ?_
    have hsame : k.task.Waits e exports = j.task.Waits e exports := congrArg _ hkj
    exact hsame.mpr hwaits
  have hover₀ : ∀ j ∈ (Job.runAll e jobs w).1, j.stage.over = true := by
    have hnone : Coherent e exports w.graph w.desk ([] ++ jobs) w := hcoherent
    exact hnone.over_runAll hruns hchained (fun _ hb => absurd hb List.not_mem_nil) hclear
  constructor
  · rw [mapM_output?_eq htask₀ fun j hj => (hend₀.output?_eq hj (hover₀ j hj)).1,
      mapM_output?_eq htask fun j hj => (hend.output?_eq hj (hover j hj)).1,
      settleAll_of_task htask₀, settleAll_of_task htask]
  · intro id
    rw [hend₀.scope?_eq ((map_context_of_task htask₀).symm ▸ hchained) hover₀,
      hend.scope?_eq ((map_context_of_task htask).symm ▸ hchained) hover,
      settleAll_of_task htask₀, settleAll_of_task htask]

end LiveNotes
