import LiveNotes.Fragment.Job
import LiveNotes.Proofs.Scope.Climb

/-! What a fragment comes to when what modules export depends on their code alone. The scope it writes is
then known from the fragment itself, and its output from that and from the scopes above the one it
reads. While the jobs of some fragments go on, the graph is at all times the one at first with the scopes
that statements write marked as far as these are. -/

namespace LiveNotes

variable {V : Type}

/-- No job reads from a scope, or from one below it, that it writes itself or that a later one writes. -/
structure Chained (g : ScopeGraph V) (contexts : List FragmentContext) : Prop where
  distinct : (contexts.map (·.write)).Nodup
  behind : contexts.Pairwise fun c d => ¬ Above g.parent? c.read d.write
  own : ∀ c ∈ contexts, ¬ Above g.parent? c.read c.write

/-! ### Progress of a job -/

def Stage.begun : Stage V → Bool
  | .start => false
  | _ => true

def Stage.over : Stage V → Bool
  | .done _ => true
  | _ => false

def Stage.wait? : Stage V → Option ScopeWait
  | .expressionWaits _ wait => some wait
  | .spanWaits _ wait => some wait
  | .statementsWait wait => some wait
  | .blockWaits wait => some wait
  | _ => none

/-- The URL that a job imports from. -/
def Stage.url? : Stage V → Option String
  | .expressionImports url => some url
  | .spanImports url => some url
  | .statementsImport url => some url
  | .blockImports url => some url
  | _ => none

theorem Stage.eq_done_of_over {s : Stage V} (h : s.over = true) : ∃ output, s = .done output := by
  cases s with
  | done output => exact ⟨output, rfl⟩
  | _ => contradiction

theorem Stage.eq_start_of_begun_eq_false {s : Stage V} (h : s.begun = false) : s = .start := by
  cases s with
  | start => rfl
  | _ => contradiction

theorem Stage.begun_of_over {s : Stage V} (h : s.over = true) : s.begun = true := by
  obtain ⟨output, rfl⟩ := Stage.eq_done_of_over h
  rfl

namespace Job

/-! ### Outcomes -/

/-- The code of the module that is imported for a fragment. -/
def code (e : Evaluator V) (j : Job V) : Except Error String :=
  match j.kind with
  | .inlineExpression => e.transpile (Transpile.expressionModule j.content) j.context.read false
  | .blockStatement => e.transpile j.content j.context.read true
  | .inlineMarkup => e.transpile (Transpile.markupModule j.content) j.context.read true
  | .blockMarkup => e.transpile (Transpile.markupModule j.content) j.context.read true

variable (e : Evaluator V) (exports : String → Except Error (Exports V))

def exported (j : Job V) : Except Error (Exports V) := (j.code e).bind exports

def main (j : Job V) : Except Error V := (j.exported e exports).bind Evaluator.defaultExport

/-- The output of a fragment that finds the scopes above the one it reads as they are in `final`. -/
def outcome (final : ScopeGraph V) (j : Job V) : FragmentOutput V :=
  match j.kind with
  | .inlineExpression =>
    match (j.main e exports).bind e.loader.host.call with
    | .error err => Evaluator.lineError err
    | .ok value => .text (e.loader.host.display value)
  | .inlineMarkup =>
    match j.main e exports with
    | .error err => Evaluator.lineError err
    | .ok factory => .markup factory
  | .blockStatement =>
    match j.exported e exports with
    | .error err => .error err.message
    | .ok found => .published found.names
  | .blockMarkup =>
    if j.content.isEmpty then .empty
    else match j.context.component with
    | some name =>
      match final.get? j.context.read name with
      | some c => .component c j.content
      | none => .error (Error.evaluation (name ++ " is not defined") none).message
    | none =>
      match j.main e exports with
      | .error err => .error err.message
      | .ok factory => .markup factory

/-- Whether a fragment waits for the scopes it reads before it is done. -/
def Waits (j : Job V) : Prop :=
  match j.kind with
  | .inlineExpression => ∃ c, j.code e = .ok c
  | .inlineMarkup => ∃ v, j.main e exports = .ok v
  | .blockStatement => True
  | .blockMarkup => j.content.isEmpty = false

/-! ### Scopes that are written -/

/-- What the end of a job leaves of the scope it writes. -/
def settle (j : Job V) (s : Scope V) : Scope V :=
  match j.kind with
  | .blockStatement =>
    match j.exported e exports with
    | .error _ => { s with blocked := false }
    | .ok found => { s with bindings := Table.extend [] found, blocked := false }
  | _ => s

/-- What a job has made of the scope it writes by now. -/
def mark (j : Job V) (s : Scope V) : Scope V :=
  match j.kind, j.stage with
  | .blockStatement, .start => s
  | .blockStatement, .done _ => j.settle e exports s
  | .blockStatement, _ => { s with blocked := true }
  | _, _ => s

def settleAll (jobs : List (Job V)) (g : ScopeGraph V) : ScopeGraph V :=
  jobs.foldl (fun g j => g.modify j.context.write (j.settle e exports)) g

variable {e exports} {j : Job V} {jobs : List (Job V)} {g g₀ : ScopeGraph V}

/-- Jobs change no more of a scope than what it binds and whether it is blocked. -/
theorem settle_eq (j : Job V) (s : Scope V) :
    ∃ bindings blocked, j.settle e exports s = { s with bindings := bindings, blocked := blocked } := by
  unfold settle
  split
  · split
    · exact ⟨s.bindings, false, rfl⟩
    · next found _ => exact ⟨Table.extend [] found, false, rfl⟩
  · exact ⟨s.bindings, s.blocked, rfl⟩

theorem settle_of_kind_ne (h : j.kind ≠ .blockStatement) (s : Scope V) : j.settle e exports s = s := by
  unfold settle
  split
  · contradiction
  · rfl

theorem mark_eq (j : Job V) (s : Scope V) :
    ∃ bindings blocked, j.mark e exports s = { s with bindings := bindings, blocked := blocked } := by
  unfold mark
  split
  · exact ⟨s.bindings, s.blocked, rfl⟩
  · exact settle_eq j s
  · exact ⟨s.bindings, true, rfl⟩
  · exact ⟨s.bindings, s.blocked, rfl⟩

theorem mark_of_kind_ne (h : j.kind ≠ .blockStatement) (s : Scope V) : j.mark e exports s = s := by
  unfold mark
  split
  · contradiction
  · contradiction
  · contradiction
  · rfl

theorem mark_of_over (h : j.stage.over = true) (s : Scope V) :
    j.mark e exports s = j.settle e exports s := by
  obtain ⟨output, hs⟩ := Stage.eq_done_of_over h
  by_cases hk : j.kind = .blockStatement
  · unfold mark
    rw [hk, hs]
  · rw [mark_of_kind_ne hk, settle_of_kind_ne hk]

theorem mark_of_begun (hk : j.kind = .blockStatement) (hbegun : j.stage.begun = true)
    (hover : j.stage.over = false) (s : Scope V) : j.mark e exports s = { s with blocked := true } := by
  unfold mark
  rw [hk]
  cases hs : j.stage with
  | start =>
    rw [hs] at hbegun
    contradiction
  | done o =>
    rw [hs] at hover
    contradiction
  | _ => rfl

theorem mark_of_not_begun (h : j.stage.begun = false) (s : Scope V) : j.mark e exports s = s := by
  unfold mark
  rw [Stage.eq_start_of_begun_eq_false h]
  cases j.kind with
  | _ => rfl

/-! ### The graph after all jobs -/

theorem scope?_settleAll_of_ne {id : String} (h : ∀ j ∈ jobs, j.context.write ≠ id) :
    (settleAll e exports jobs g).scope? id = g.scope? id := by
  induction jobs generalizing g with
  | nil => rfl
  | cons j jobs ih =>
    have hstep := ih (g := g.modify j.context.write (j.settle e exports))
      fun k hk => h k (List.mem_cons_of_mem _ hk)
    exact hstep.trans (ScopeGraph.scope?_modify_of_ne (h j List.mem_cons_self).symm)

theorem scope?_settleAll (hdistinct : (jobs.map (·.context.write)).Nodup) (hj : j ∈ jobs) :
    (settleAll e exports jobs g).scope? j.context.write =
      (g.scope? j.context.write).map (j.settle e exports) := by
  induction jobs generalizing g with
  | nil => exact absurd hj List.not_mem_nil
  | cons k jobs ih =>
    rw [List.map_cons, List.nodup_cons] at hdistinct
    have hnot : ∀ l ∈ jobs, l.context.write ≠ k.context.write := by
      intro l hl heq
      exact hdistinct.1 (List.mem_map.2 ⟨l, hl, heq⟩)
    rcases List.mem_cons.1 hj with rfl | hj'
    · have hrest : (settleAll e exports (j :: jobs) g).scope? j.context.write =
          (g.modify j.context.write (j.settle e exports)).scope? j.context.write :=
        scope?_settleAll_of_ne hnot
      exact hrest.trans (ScopeGraph.scope?_modify_self g _ _)
    · have hrest := ih (g := g.modify k.context.write (k.settle e exports)) hdistinct.2 hj'
      rw [ScopeGraph.scope?_modify_of_ne (hnot j hj')] at hrest
      exact hrest

@[simp] theorem size_settleAll (jobs : List (Job V)) (g : ScopeGraph V) :
    (settleAll e exports jobs g).size = g.size := by
  induction jobs generalizing g with
  | nil => rfl
  | cons j jobs ih =>
    have hstep := ih (g.modify j.context.write (j.settle e exports))
    exact hstep.trans (ScopeGraph.size_modify g _ _)

end Job

/-! ### The graph while jobs go on -/

/-- A graph is another one with what jobs have made by now of the scopes they write. -/
structure Marked (e : Evaluator V) (exports : String → Except Error (Exports V)) (g₀ : ScopeGraph V)
    (jobs : List (Job V)) (g : ScopeGraph V) : Prop where
  size : g.size = g₀.size
  other : ∀ id, (∀ j ∈ jobs, j.context.write ≠ id) → g.scope? id = g₀.scope? id
  written : ∀ j ∈ jobs,
    g.scope? j.context.write = (g₀.scope? j.context.write).map (j.mark e exports)

/-- Nothing goes on to be written in a scope. -/
def Settled (g₀ : ScopeGraph V) (jobs : List (Job V)) (id : String) : Prop :=
  (g₀.scope? id).isSome → ∀ j ∈ jobs, j.kind = .blockStatement → j.context.write = id →
    j.stage.over = true

section Middle

variable {before after : List (Job V)} {j k : Job V}

theorem eq_or_mem_of_mem_middle (hk : k ∈ before ++ j :: after) : k = j ∨ k ∈ before ++ after := by
  simpa only [List.mem_append, List.mem_cons, or_left_comm] using hk

theorem mem_middle_of_mem (hk : k ∈ before ++ after) : k ∈ before ++ j :: after :=
  ((List.Sublist.refl before).append (List.sublist_cons_self j after)).subset hk

theorem write_ne_of_nodup (hdistinct : ((before ++ j :: after).map (·.context.write)).Nodup)
    (hk : k ∈ before ++ after) : k.context.write ≠ j.context.write := by
  rw [List.map_append, List.map_cons, List.nodup_middle, List.nodup_cons, ← List.map_append] at hdistinct
  intro heq
  exact hdistinct.1 (List.mem_map.2 ⟨k, hk, heq⟩)

end Middle

namespace Marked

variable {e : Evaluator V} {exports : String → Except Error (Exports V)} {g₀ g g' : ScopeGraph V}
  {jobs : List (Job V)} {id : String}

theorem start (h : ∀ j ∈ jobs, j.stage.begun = false) : Marked e exports g₀ jobs g₀ := by
  refine ⟨rfl, fun _ _ => rfl, ?_⟩
  intro j hj
  have hmark : j.mark e exports = fun s => s := funext (Job.mark_of_not_begun (h j hj))
  rw [hmark, Option.map_id_fun']
  rfl

/-- A mark leaves a scope below its parent and as old as it is. -/
theorem exists_mark (h : Marked e exports g₀ jobs g) (id : String) :
    ∃ f : Scope V → Scope V, (∀ s, (f s).parent = s.parent) ∧ (∀ s, (f s).birth = s.birth) ∧
      g.scope? id = (g₀.scope? id).map f := by
  by_cases hw : ∃ j ∈ jobs, j.context.write = id
  · obtain ⟨j, hj, rfl⟩ := hw
    refine ⟨j.mark e exports, fun s => ?_, fun s => ?_, h.written j hj⟩
    · obtain ⟨bindings, blocked, hs⟩ := Job.mark_eq (e := e) j s
      rw [hs]
    · obtain ⟨bindings, blocked, hs⟩ := Job.mark_eq (e := e) j s
      rw [hs]
  · refine ⟨fun s => s, fun _ => rfl, fun _ => rfl, ?_⟩
    rw [Option.map_id_fun']
    exact h.other id fun j hj heq => hw ⟨j, hj, heq⟩

theorem parent? (h : Marked e exports g₀ jobs g) : g.parent? = g₀.parent? := by
  funext id
  obtain ⟨f, hf, -, hscope⟩ := h.exists_mark id
  unfold ScopeGraph.parent?
  rw [hscope, Option.bind_map]
  exact congrArg (g₀.scope? id).bind (funext hf)

theorem current_iff (h : Marked e exports g₀ jobs g) (w : ScopeWait) : g.Current w ↔ g₀.Current w := by
  obtain ⟨f, -, hf, hscope⟩ := h.exists_mark w.id
  unfold ScopeGraph.Current
  rw [hscope]
  constructor
  · intro hw b hb s hs
    have hmarked := hw b hb (f s) (by rw [hs, Option.map_some])
    exact hmarked.trans (hf s)
  · intro hw b hb s hs
    obtain ⟨s', hs', rfl⟩ := Option.map_eq_some_iff.1 hs
    exact (hw b hb s' hs').trans (hf s').symm

/-- A settled scope is as it will be in the end. -/
theorem scope?_of_settled (h : Marked e exports g₀ jobs g)
    (hdistinct : (jobs.map (·.context.write)).Nodup) (hid : Settled g₀ jobs id) :
    g.scope? id = (Job.settleAll e exports jobs g₀).scope? id := by
  by_cases hw : ∃ j ∈ jobs, j.context.write = id
  · obtain ⟨j, hj, rfl⟩ := hw
    rw [h.written j hj, Job.scope?_settleAll hdistinct hj]
    cases hs : g₀.scope? j.context.write with
    | none => rfl
    | some s =>
      rw [Option.map_some, Option.map_some]
      by_cases hk : j.kind = .blockStatement
      · rw [Job.mark_of_over (hid (by rw [hs]; rfl) j hj hk rfl)]
      · rw [Job.mark_of_kind_ne hk, Job.settle_of_kind_ne hk]
  · have hnot : ∀ j ∈ jobs, j.context.write ≠ id := fun j hj heq => hw ⟨j, hj, heq⟩
    rw [h.other id hnot, Job.scope?_settleAll_of_ne hnot]

/-- Statements that go on keep their scope blocked; so an open scope is settled, when all jobs that
write it have begun. -/
theorem settled_of_open (h : Marked e exports g₀ jobs g) (hid : g.Open id)
    (hbegun : ∀ j ∈ jobs, j.context.write = id → j.stage.begun = true) : Settled g₀ jobs id := by
  intro hlive j hj hk hw
  by_contra hover
  obtain ⟨s, hs⟩ := Option.isSome_iff_exists.1 hlive
  have hmark := h.written j hj
  rw [hw, hs, Option.map_some,
    Job.mark_of_begun hk (hbegun j hj hw) (Bool.not_eq_true _ ▸ hover)] at hmark
  unfold ScopeGraph.Open ScopeGraph.isBlocked at hid
  rw [hmark] at hid
  contradiction

theorem update {before after : List (Job V)} {j : Job V} {stage : Stage V} {f : Scope V → Scope V}
    (h : Marked e exports g₀ (before ++ j :: after) g)
    (hdistinct : ((before ++ j :: after).map (·.context.write)).Nodup) (hsize : g'.size = g.size)
    (hself : g'.scope? j.context.write = (g.scope? j.context.write).map f)
    (hother : ∀ id, id ≠ j.context.write → g'.scope? id = g.scope? id)
    (hmark : ∀ s, f (j.mark e exports s) = ({ j with stage := stage } : Job V).mark e exports s) :
    Marked e exports g₀ (before ++ { j with stage := stage } :: after) g' := by
  refine ⟨hsize.trans h.size, ?_, ?_⟩
  · intro id hid
    have hne : id ≠ j.context.write := fun heq => hid { j with stage := stage } (by simp) heq.symm
    rw [hother id hne]
    refine h.other id fun k hk => ?_
    rcases eq_or_mem_of_mem_middle hk with rfl | hk
    · exact hne.symm
    · exact hid k (mem_middle_of_mem hk)
  · intro k hk
    rcases eq_or_mem_of_mem_middle hk with rfl | hk
    · have hold := h.written j (by simp)
      dsimp only
      rw [hself, hold, Option.map_map]
      exact congrArg (fun f => (g₀.scope? j.context.write).map f) (funext hmark)
    · -- All other jobs write other scopes.
      rw [hother _ (write_ne_of_nodup hdistinct hk)]
      exact h.written k (mem_middle_of_mem hk)

end Marked

end LiveNotes
