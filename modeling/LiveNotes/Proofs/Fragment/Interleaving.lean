import LiveNotes.Proofs.Fragment.Turn

/-! Jobs that go on in any order. Their first stages come in the order of the list; after that any job
may go on by a stage, or climb on with its wait, at any time. Whatever the order, no job gets to see a
scope above the one it reads before the jobs that write there are done. -/

namespace LiveNotes

variable {V : Type}

theorem Stage.over_climb {g : ScopeGraph V} {count : Nat} {s : Stage V} (h : s.over = true) :
    (s.climb g count).over = true := by
  obtain ⟨output, rfl⟩ := Stage.eq_done_of_over h
  rfl

theorem Evaluator.step_of_over {e : Evaluator V} {j : Job V} {w : World V} (h : j.stage.over = true) :
    e.step j w = none := by
  obtain ⟨output, hs⟩ := Stage.eq_done_of_over h
  unfold step
  rw [hs]

inductive Job.Advances (e : Evaluator V) : Job V → World V → Job V → World V → Prop
  | step {j : Job V} {w w' : World V} {stage : Stage V} : e.step j w = some (stage, w') →
      Advances e j w { j with stage := stage } w'
  | climb {j : Job V} {w : World V} (count : Nat) :
      Advances e j w { j with stage := j.stage.climb w.graph count } w

/-- One of some jobs goes on; none begins before those in front of it. -/
inductive Job.Moves (e : Evaluator V) : List (Job V) × World V → List (Job V) × World V → Prop
  | advance {before after : List (Job V)} {j j' : Job V} {w w' : World V} : j.Advances e w j' w' →
      (j.stage.begun = false → ∀ b ∈ before, b.stage.begun = true) →
      Moves e (before ++ j :: after, w) (before ++ j' :: after, w')

def Job.Interleaves (e : Evaluator V) : List (Job V) × World V → List (Job V) × World V → Prop :=
  Relation.ReflTransGen (Job.Moves e)

variable (e : Evaluator V) (exports : String → Except Error (Exports V)) (g₀ : ScopeGraph V) (d₀ : Desk)

/-- A scope that is settled, and open in the end. -/
def Passable (jobs : List (Job V)) (id : String) : Prop :=
  (Job.settleAll e exports jobs g₀).Open id ∧ Settled g₀ jobs id

/-- Jobs on their way, and the world as they have made it. -/
structure Coherent (jobs : List (Job V)) (w : World V) : Prop where
  graph : Marked e exports g₀ jobs w.graph
  begun : jobs.Pairwise fun j k => k.stage.begun = true → j.stage.begun = true
  fits : ∀ j ∈ jobs,
    j.Fits e exports g₀ (Job.settleAll e exports jobs g₀) (Passable e exports g₀ jobs)
  desk : e.loader.Serving d₀ w.desk (jobs.filterMap (Job.pending e))
  ready : e.componentsReady w = true

variable {e exports g₀ d₀} {before after jobs jobs' : List (Job V)} {j j' : Job V} {w w' : World V}
  {stage : Stage V} {id : String}

theorem coherent_start (hjobs : ∀ j ∈ jobs, j.stage = .start) (hready : e.componentsReady w = true) :
    Coherent e exports w.graph w.desk jobs w := by
  have hpending : jobs.filterMap (Job.pending e) = [] := by
    rw [List.filterMap_eq_nil_iff]
    intro j hj
    refine Job.pending_of_url?_none ?_
    rw [hjobs j hj]
    rfl
  refine ⟨Marked.start fun j hj => by rw [hjobs j hj]; rfl, ?_, ?_, hpending ▸ .start, hready⟩
  · rw [List.pairwise_iff_forall_sublist]
    intro j k hjk hk
    rw [hjobs k (hjk.subset (by simp))] at hk
    contradiction
  · intro j hj
    unfold Job.Fits
    rw [hjobs j hj]
    trivial

theorem settleAll_stage (before after : List (Job V)) (j : Job V) (stage : Stage V) (g : ScopeGraph V) :
    Job.settleAll e exports (before ++ { j with stage := stage } :: after) g =
      Job.settleAll e exports (before ++ j :: after) g := by
  unfold Job.settleAll
  rw [List.foldl_append, List.foldl_append]
  rfl

theorem Settled.of_stage (h : Settled g₀ (before ++ j :: after) id)
    (hover : j.stage.over = true → stage.over = true) :
    Settled g₀ (before ++ { j with stage := stage } :: after) id := by
  intro hlive k hk hkind hw
  rcases eq_or_mem_of_mem_middle hk with rfl | hk
  · exact hover (h hlive j (by simp) hkind hw)
  · exact h hlive k (mem_middle_of_mem hk) hkind hw

theorem Passable.of_stage (h : Passable e exports g₀ (before ++ j :: after) id)
    (hover : j.stage.over = true → stage.over = true) :
    Passable e exports g₀ (before ++ { j with stage := stage } :: after) id := by
  refine ⟨?_, Settled.of_stage h.2 hover⟩
  rw [settleAll_stage]
  exact h.1

theorem map_context_stage (before after : List (Job V)) (j : Job V) (stage : Stage V) :
    (before ++ { j with stage := stage } :: after).map (·.context) =
      (before ++ j :: after).map (·.context) := by
  rw [List.map_append, List.map_append]
  rfl

theorem Chained.not_above (h : Chained g₀ ((before ++ j :: after).map (·.context))) :
    ∀ k ∈ j :: after, ¬ Above g₀.parent? j.context.read k.context.write := by
  intro k hk
  rcases List.mem_cons.1 hk with rfl | hk
  · exact h.own k.context (List.mem_map.2 ⟨k, by simp, rfl⟩)
  · have hbehind := h.behind
    rw [List.map_append, List.map_cons, List.pairwise_append, List.pairwise_cons] at hbehind
    exact hbehind.2.1.1 k.context (List.mem_map.2 ⟨k, hk, rfl⟩)

theorem Chained.nodup_write (h : Chained g₀ (jobs.map (·.context))) :
    (jobs.map (·.context.write)).Nodup := by
  have hdistinct := h.distinct
  rwa [List.map_map] at hdistinct

theorem filterMap_pending (before after : List (Job V)) (j : Job V) :
    (before ++ j :: after).filterMap (Job.pending e) =
      before.filterMap (Job.pending e) ++ ((j.pending e).toList ++ after.filterMap (Job.pending e)) := by
  rw [List.filterMap_append, List.filterMap_cons]
  cases j.pending e with
  | none => rfl
  | some p => rfl

namespace Coherent

theorem begun_before (h : Coherent e exports g₀ d₀ (before ++ j :: after) w)
    (hbefore : j.stage.begun = false → ∀ b ∈ before, b.stage.begun = true) :
    ∀ b ∈ before, b.stage.begun = true := by
  cases hj : j.stage.begun with
  | false => exact hbefore hj
  | true =>
    intro b hb
    exact (List.pairwise_append.1 h.begun).2.2 b hb j List.mem_cons_self hj

/-- What is open now above the scope that a job reads stays as it is. -/
theorem passable_of_open (h : Coherent e exports g₀ d₀ (before ++ j :: after) w)
    (hchained : Chained g₀ ((before ++ j :: after).map (·.context)))
    (hbefore : ∀ b ∈ before, b.stage.begun = true)
    (habove : Above g₀.parent? j.context.read id) (hopen : w.graph.Open id) :
    Passable e exports g₀ (before ++ j :: after) id := by
  have hsettled : Settled g₀ (before ++ j :: after) id := by
    refine h.graph.settled_of_open hopen ?_
    intro k hk hw
    -- Jobs in front have begun, and the others write nothing that this one reads.
    rcases List.mem_append.1 hk with hk | hk
    · exact hbefore k hk
    · exact absurd (hw ▸ habove) (hchained.not_above k hk)
  refine ⟨?_, hsettled⟩
  unfold ScopeGraph.Open ScopeGraph.isBlocked at hopen ⊢
  rwa [← h.graph.scope?_of_settled hchained.nodup_write hsettled]

theorem sees (h : Coherent e exports g₀ d₀ (before ++ j :: after) w)
    (hruns : e.loader.RunsCode d₀ exports)
    (hchained : Chained g₀ ((before ++ j :: after).map (·.context)))
    (hbefore : ∀ b ∈ before, b.stage.begun = true) :
    j.Sees e exports g₀ (Job.settleAll e exports (before ++ j :: after) g₀)
      (Passable e exports g₀ (before ++ j :: after)) w := by
  have hpass : ∀ n, Above g₀.parent? j.context.read n → w.graph.Open n →
      Passable e exports g₀ (before ++ j :: after) n :=
    fun _ => passable_of_open h hchained hbefore
  refine ⟨?_, ?_, ?_, ?_⟩
  · intro count wait wait' hclimbing hgo
    have hcurrent := (h.graph.current_iff wait).2 hclimbing.current
    obtain ⟨hclimbed, hcurrent'⟩ := ScopeGraph.goOn_eq_some hcurrent hgo
    rw [h.graph.parent?] at hclimbed
    have hfree := hclimbed.mono fun n hn => hpass n (hclimbing.climbed.above.trans hn)
    exact ⟨hclimbing.climbed.trans hfree, (h.graph.current_iff wait').1 hcurrent'⟩
  · intro wait hclimbing hover
    have hclear := ScopeGraph.goOn_eq_none ((h.graph.current_iff wait).2 hclimbing.current) hover
    rw [h.graph.parent?] at hclear
    have hfree := hclear.mono fun n hn => hpass n (hclimbing.climbed.above.trans hn)
    exact hfree.of_climbed hclimbing.climbed
  · intro hpassed name
    refine (ScopeGraph.get?_congr ?_ ?_ name).symm
    · rw [Job.size_settleAll, h.graph.size]
    · intro n hn
      rw [h.graph.parent?] at hn
      have hfree := (Clear.above hpassed hn).here
      exact (h.graph.scope?_of_settled hchained.nodup_write hfree.2).symm
  · intro url c hurl hc
    refine hruns w.desk _ h.desk url c ?_
    rw [List.mem_filterMap]
    exact ⟨j, by simp, Job.pending_of_url? hurl hc⟩

theorem turn (h : Coherent e exports g₀ d₀ (before ++ j :: after) w)
    (hchained : Chained g₀ ((before ++ j :: after).map (·.context)))
    (hbefore : ∀ b ∈ before, b.stage.begun = true)
    (hover : j.stage.over = true → stage.over = true)
    (hturn : j.Turn e exports g₀ (Job.settleAll e exports (before ++ j :: after) g₀)
      (Passable e exports g₀ (before ++ j :: after)) d₀ w stage w') :
    Coherent e exports g₀ d₀ (before ++ { j with stage := stage } :: after) w' := by
  have hfree : ∀ n, Passable e exports g₀ (before ++ j :: after) n →
      Passable e exports g₀ (before ++ { j with stage := stage } :: after) n :=
    fun n hn => Passable.of_stage hn hover
  obtain ⟨f, hself, hmark⟩ := hturn.written
  refine ⟨h.graph.update hchained.nodup_write hturn.size hself hturn.other hmark, ?_, ?_, ?_, ?_⟩
  · obtain ⟨hpre, hpost, hcross⟩ := List.pairwise_append.1 h.begun
    refine List.pairwise_append.2 ⟨hpre, List.pairwise_cons.2 ⟨?_, (List.pairwise_cons.1 hpost).2⟩, ?_⟩
    · exact fun _ _ _ => hturn.begun
    · exact fun b hb _ _ _ => hbefore b hb
  · intro k hk
    rw [settleAll_stage]
    rcases eq_or_mem_of_mem_middle hk with rfl | hk
    · exact hturn.fits.mono hfree
    · exact (h.fits k (mem_middle_of_mem hk)).mono hfree
  · have hdesk := h.desk
    rw [filterMap_pending] at hdesk ⊢
    exact hturn.desk _ _ hdesk
  · unfold Evaluator.componentsReady
    rw [hturn.coordinator]
    exact h.ready

/-- The step of an interleaving. -/
theorem advance (h : Coherent e exports g₀ d₀ (before ++ j :: after) w)
    (hruns : e.loader.RunsCode d₀ exports)
    (hchained : Chained g₀ ((before ++ j :: after).map (·.context))) (hadvances : j.Advances e w j' w')
    (hbefore : j.stage.begun = false → ∀ b ∈ before, b.stage.begun = true) :
    Coherent e exports g₀ d₀ (before ++ j' :: after) w' := by
  have hbegun := h.begun_before hbefore
  have hfits := h.fits j (by simp)
  have hsees := h.sees hruns hchained hbegun
  cases hadvances with
  | step hstep =>
    refine h.turn hchained hbegun ?_ (Job.turn_of_step hfits hsees hstep)
    intro hover
    rw [Evaluator.step_of_over hover] at hstep
    contradiction
  | climb count =>
    rcases Job.turn_of_climb hfits hsees count with hsame | hturn
    · rwa [hsame]
    · exact h.turn hchained hbegun (fun hover => Stage.over_climb hover) hturn

end Coherent

def Job.task (j : Job V) : Job V := { j with stage := .start }

theorem Job.Advances.task (h : j.Advances e w j' w') : j'.task = j.task := by
  cases h with
  | step _ => rfl
  | climb _ => rfl

theorem Job.Moves.task (h : Job.Moves e (jobs, w) (jobs', w')) :
    jobs'.map Job.task = jobs.map Job.task := by
  cases h with
  | advance hadvances _ =>
    rw [List.map_append, List.map_append, List.map_cons, List.map_cons, hadvances.task]

theorem map_context_of_task (h : jobs'.map Job.task = jobs.map Job.task) :
    jobs'.map (·.context) = jobs.map (·.context) := by
  have hcontext := congrArg (List.map (·.context)) h
  rwa [List.map_map, List.map_map] at hcontext

theorem settleAll_of_task (h : jobs'.map Job.task = jobs.map Job.task) (g : ScopeGraph V) :
    Job.settleAll e exports jobs' g = Job.settleAll e exports jobs g := by
  have htask : ∀ jobs : List (Job V), Job.settleAll e exports (jobs.map Job.task) g =
      Job.settleAll e exports jobs g := by
    intro jobs
    unfold Job.settleAll
    rw [List.foldl_map]
    rfl
  rw [← htask jobs', h, htask jobs]

/-- The run of an interleaving. -/
theorem Coherent.interleaves (h : Coherent e exports g₀ d₀ jobs w)
    (hruns : e.loader.RunsCode d₀ exports) (hchained : Chained g₀ (jobs.map (·.context)))
    (hrun : Job.Interleaves e (jobs, w) (jobs', w')) :
    Coherent e exports g₀ d₀ jobs' w' ∧ jobs'.map Job.task = jobs.map Job.task := by
  generalize hstart : (jobs, w) = a at hrun
  generalize hend : (jobs', w') = b at hrun
  induction hrun generalizing jobs' w' with
  | refl =>
    obtain ⟨rfl, rfl⟩ := Prod.mk.inj (hstart.trans hend.symm)
    exact ⟨h, rfl⟩
  | @tail b c _ hmove ih =>
    obtain ⟨jobs₁, w₁⟩ := b
    obtain ⟨hcoherent, htask⟩ := ih rfl
    subst hend
    refine ⟨?_, hmove.task.trans htask⟩
    rw [← map_context_of_task htask] at hchained
    cases hmove with
    | advance hadvances hbefore => exact hcoherent.advance hruns hchained hadvances hbefore

end LiveNotes
