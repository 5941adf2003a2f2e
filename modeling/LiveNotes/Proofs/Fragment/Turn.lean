import LiveNotes.Proofs.Fragment.Outcome
import LiveNotes.Proofs.Loader.Serving

/-! One stage of a job. What a job holds at each stage is what its fragment comes to by then; each stage
keeps this up, and changes no more of the world than the scope that the job writes and the URL of its
module. -/

namespace LiveNotes

variable {V : Type}

/-- A stage with its wait gone on with past at most `count` scopes. -/
def Stage.climb (g : ScopeGraph V) (count : Nat) : Stage V → Stage V
  | .expressionWaits code wait => .expressionWaits code ((g.goOn count wait).getD wait)
  | .spanWaits factory wait => .spanWaits factory ((g.goOn count wait).getD wait)
  | .statementsWait wait => .statementsWait ((g.goOn count wait).getD wait)
  | .blockWaits wait => .blockWaits ((g.goOn count wait).getD wait)
  | s => s

theorem Stage.hold_eq_climb (g : ScopeGraph V) (s : Stage V) : s.hold g = s.climb g (g.size + 1) := by
  cases s with
  | _ => rfl

namespace Job

variable (e : Evaluator V) (exports : String → Except Error (Exports V)) (g₀ final : ScopeGraph V)
  (free : String → Prop)

/-- The URL that a job imports from, with the code behind it. -/
def pending (j : Job V) : Option (String × String) :=
  j.stage.url?.bind fun url => (j.code e).toOption.map fun c => (url, c)

/-- A wait has come from a scope past free ones. -/
structure Climbing (read : String) (wait : ScopeWait) : Prop where
  climbed : Climbed g₀.parent? free read wait.id
  current : g₀.Current wait

/-- All scopes that a job reads from are free. -/
def Passed (j : Job V) : Prop := Clear g₀.parent? free j.context.read

/-- A job holds what its fragment comes to. -/
def Fits (j : Job V) : Prop :=
  match j.stage with
  | .start => True
  | .expressionWaits code wait =>
    j.kind = .inlineExpression ∧ j.code e = .ok code ∧ Climbing g₀ free j.context.read wait
  | .expressionImports _ =>
    j.kind = .inlineExpression ∧ (∃ c, j.code e = .ok c) ∧ j.Passed g₀ free
  | .expressionCalls function =>
    j.kind = .inlineExpression ∧ j.main e exports = .ok function ∧ j.Passed g₀ free
  | .spanWaitsForComponents => j.kind = .inlineMarkup
  | .spanImports _ => j.kind = .inlineMarkup ∧ ∃ c, j.code e = .ok c
  | .spanWaits factory wait =>
    j.kind = .inlineMarkup ∧ j.main e exports = .ok factory ∧ Climbing g₀ free j.context.read wait
  | .statementsWait wait => j.kind = .blockStatement ∧ Climbing g₀ free j.context.read wait
  | .statementsImport _ => j.kind = .blockStatement ∧ (∃ c, j.code e = .ok c) ∧ j.Passed g₀ free
  | .blockWaitsForComponents => j.kind = .blockMarkup ∧ j.content.isEmpty = false
  | .blockWaits wait =>
    j.kind = .blockMarkup ∧ j.content.isEmpty = false ∧ Climbing g₀ free j.context.read wait
  | .blockImports _ =>
    j.kind = .blockMarkup ∧ j.content.isEmpty = false ∧ j.context.component = none ∧
      (∃ c, j.code e = .ok c) ∧ j.Passed g₀ free
  | .done output => output = j.outcome e exports final ∧ (j.Waits e exports → j.Passed g₀ free)

/-- What a job finds in the world is what there will be in the end. -/
structure Sees (j : Job V) (w : World V) : Prop where
  climbs : ∀ count wait wait', Climbing g₀ free j.context.read wait →
    w.graph.goOn count wait = some wait' → Climbing g₀ free j.context.read wait'
  passes : ∀ wait, Climbing g₀ free j.context.read wait → w.graph.await? wait = none → j.Passed g₀ free
  reads : j.Passed g₀ free → ∀ name, w.graph.get? j.context.read name = final.get? j.context.read name
  imports : ∀ url c, j.stage.url? = some url → j.code e = .ok c → (e.importUrl w url).1 = exports c

/-- A job has gone on by one stage. -/
structure Turn (d₀ : Desk) (j : Job V) (w : World V) (stage : Stage V) (w' : World V) : Prop where
  fits : ({ j with stage := stage } : Job V).Fits e exports g₀ final free
  begun : stage.begun = true
  size : w'.graph.size = w.graph.size
  other : ∀ id, id ≠ j.context.write → w'.graph.scope? id = w.graph.scope? id
  written : ∃ f : Scope V → Scope V,
    w'.graph.scope? j.context.write = (w.graph.scope? j.context.write).map f ∧
      ∀ s, f (j.mark e exports s) = ({ j with stage := stage } : Job V).mark e exports s
  desk : ∀ a b, e.loader.Serving d₀ w.desk (a ++ ((j.pending e).toList ++ b)) →
    e.loader.Serving d₀ w'.desk (a ++ ((pending e { j with stage := stage }).toList ++ b))
  coordinator : w'.coordinator = w.coordinator

variable {e exports g₀ final free} {d₀ : Desk} {j : Job V} {w w' : World V} {stage : Stage V}

theorem Climbing.mono {free' : String → Prop} {wait : ScopeWait}
    (h : Climbing g₀ free j.context.read wait) (hfree : ∀ n, free n → free' n) :
    Climbing g₀ free' j.context.read wait :=
  ⟨h.climbed.mono fun n _ => hfree n, h.current⟩

theorem Passed.mono {free' : String → Prop} (h : j.Passed g₀ free) (hfree : ∀ n, free n → free' n) :
    j.Passed g₀ free' := Clear.mono h fun n _ => hfree n

theorem Fits.mono {free' : String → Prop} (h : j.Fits e exports g₀ final free)
    (hfree : ∀ n, free n → free' n) : j.Fits e exports g₀ final free' := by
  unfold Fits at h ⊢
  split at h
  · trivial
  · exact ⟨h.1, h.2.1, h.2.2.mono hfree⟩
  · exact ⟨h.1, h.2.1, h.2.2.mono hfree⟩
  · exact ⟨h.1, h.2.1, h.2.2.mono hfree⟩
  · exact h
  · exact h
  · exact ⟨h.1, h.2.1, h.2.2.mono hfree⟩
  · exact ⟨h.1, h.2.mono hfree⟩
  · exact ⟨h.1, h.2.1, h.2.2.mono hfree⟩
  · exact h
  · exact ⟨h.1, h.2.1, h.2.2.mono hfree⟩
  · exact ⟨h.1, h.2.1, h.2.2.1, h.2.2.2.1, h.2.2.2.2.mono hfree⟩
  · exact ⟨h.1, fun hw => (h.2 hw).mono hfree⟩

theorem Fits.climbing {wait : ScopeWait} (h : j.Fits e exports g₀ final free)
    (hwait : j.stage.wait? = some wait) :
    j.Waits e exports ∧ Climbing g₀ free j.context.read wait := by
  unfold Fits at h
  unfold Waits
  cases hs : j.stage with
  | expressionWaits code w =>
    rw [hs] at h hwait
    obtain ⟨hk, hc, hclimbing⟩ := h
    obtain rfl := Option.some.inj hwait
    rw [hk]
    exact ⟨⟨code, hc⟩, hclimbing⟩
  | spanWaits factory w =>
    rw [hs] at h hwait
    obtain ⟨hk, hmain, hclimbing⟩ := h
    obtain rfl := Option.some.inj hwait
    rw [hk]
    exact ⟨⟨factory, hmain⟩, hclimbing⟩
  | statementsWait w =>
    rw [hs] at h hwait
    obtain ⟨hk, hclimbing⟩ := h
    obtain rfl := Option.some.inj hwait
    rw [hk]
    exact ⟨trivial, hclimbing⟩
  | blockWaits w =>
    rw [hs] at h hwait
    obtain ⟨hk, hfull, hclimbing⟩ := h
    obtain rfl := Option.some.inj hwait
    rw [hk]
    exact ⟨hfull, hclimbing⟩
  | _ =>
    rw [hs] at hwait
    contradiction

theorem pending_of_url?_none (h : j.stage.url? = none) : j.pending e = none := by
  unfold pending
  rw [h]
  rfl

theorem pending_of_url? {url c : String} (h : j.stage.url? = some url) (hc : j.code e = .ok c) :
    j.pending e = some (url, c) := by
  unfold pending
  rw [h, hc]
  rfl

theorem main_of_code_error {err : Error} (hc : j.code e = .error err) :
    j.main e exports = .error err := by
  unfold main exported
  rw [hc]
  rfl

theorem main_of_exports {c : String} (hc : j.code e = .ok c) :
    (exports c).bind Evaluator.defaultExport = j.main e exports := by
  unfold main exported
  rw [hc]
  rfl

/-! ### Turns of some shapes -/

theorem turn_of_write {f : Scope V → Scope V} {g : ScopeGraph V}
    (hfits : ({ j with stage := stage } : Job V).Fits e exports g₀ final free)
    (hbegun : stage.begun = true) (hsize : g.size = w.graph.size)
    (hother : ∀ id, id ≠ j.context.write → g.scope? id = w.graph.scope? id)
    (hself : g.scope? j.context.write = (w.graph.scope? j.context.write).map f)
    (hmark : ∀ s, f (j.mark e exports s) = ({ j with stage := stage } : Job V).mark e exports s)
    (hurl : j.stage.url? = none) (hurl' : stage.url? = none) :
    j.Turn e exports g₀ final free d₀ w stage { w with graph := g } := by
  refine ⟨hfits, hbegun, hsize, hother, ⟨f, hself, hmark⟩, ?_, rfl⟩
  intro a b hab
  have hnew : pending e { j with stage := stage } = none := pending_of_url?_none hurl'
  rw [pending_of_url?_none hurl] at hab
  rwa [hnew]

theorem turn_of_quiet (hfits : ({ j with stage := stage } : Job V).Fits e exports g₀ final free)
    (hbegun : stage.begun = true)
    (hmark : ∀ s, j.mark e exports s = ({ j with stage := stage } : Job V).mark e exports s)
    (hurl : j.stage.url? = none) (hurl' : stage.url? = none) :
    j.Turn e exports g₀ final free d₀ w stage w := by
  refine turn_of_write (f := fun s => s) hfits hbegun rfl (fun _ _ => rfl) ?_ hmark hurl hurl'
  rw [Option.map_id_fun']
  rfl

theorem turn_of_register {c : String}
    (hfits : ({ j with stage := stage } : Job V).Fits e exports g₀ final free)
    (hbegun : stage.begun = true)
    (hmark : ∀ s, j.mark e exports s = ({ j with stage := stage } : Job V).mark e exports s)
    (hc : j.code e = .ok c) (hurl : j.stage.url? = none)
    (hurl' : stage.url? = some (e.register w c).1) :
    j.Turn e exports g₀ final free d₀ w stage (e.register w c).2 := by
  refine ⟨hfits, hbegun, rfl, fun _ _ => rfl, ⟨fun s => s, ?_, hmark⟩, ?_, rfl⟩
  · rw [Option.map_id_fun']
    rfl
  · intro a b hab
    have hnew : pending e { j with stage := stage } = some ((e.register w c).1, c) :=
      pending_of_url? hurl' hc
    rw [pending_of_url?_none hurl] at hab
    rw [hnew]
    exact hab.register c

theorem turn_of_import {c url : String} {f : Scope V → Scope V} {g : ScopeGraph V}
    (hfits : ({ j with stage := stage } : Job V).Fits e exports g₀ final free)
    (hbegun : stage.begun = true) (hsize : g.size = w.graph.size)
    (hother : ∀ id, id ≠ j.context.write → g.scope? id = w.graph.scope? id)
    (hself : g.scope? j.context.write = (w.graph.scope? j.context.write).map f)
    (hmark : ∀ s, f (j.mark e exports s) = ({ j with stage := stage } : Job V).mark e exports s)
    (hc : j.code e = .ok c) (hurl : j.stage.url? = some url) (hurl' : stage.url? = none) :
    j.Turn e exports g₀ final free d₀ w stage { (e.importUrl w url).2 with graph := g } := by
  refine ⟨hfits, hbegun, hsize, hother, ⟨f, hself, hmark⟩, ?_, rfl⟩
  intro a b hab
  have hnew : pending e { j with stage := stage } = none := pending_of_url?_none hurl'
  rw [pending_of_url? hurl hc] at hab
  rw [hnew]
  exact hab.importUrl

/-- A module is imported for a fragment that is not of statements. -/
theorem turn_of_quiet_import {c url : String} (hk : j.kind ≠ .blockStatement)
    (hfits : ({ j with stage := stage } : Job V).Fits e exports g₀ final free)
    (hbegun : stage.begun = true) (hc : j.code e = .ok c) (hurl : j.stage.url? = some url)
    (hurl' : stage.url? = none) :
    j.Turn e exports g₀ final free d₀ w stage (e.importUrl w url).2 := by
  have hnew : ({ j with stage := stage } : Job V).kind ≠ .blockStatement := hk
  refine turn_of_import (f := fun s => s) hfits hbegun rfl (fun _ _ => rfl) ?_ ?_ hc hurl hurl'
  · rw [Option.map_id_fun']
    rfl
  · intro s
    rw [mark_of_kind_ne hk, mark_of_kind_ne hnew]

/-! ### The first stage -/

theorem mark_stage_of_kind_ne (hk : j.kind ≠ .blockStatement) (stage : Stage V) (s : Scope V) :
    j.mark e exports s = ({ j with stage := stage } : Job V).mark e exports s := by
  have hnew : ({ j with stage := stage } : Job V).kind ≠ .blockStatement := hk
  rw [mark_of_kind_ne hk, mark_of_kind_ne hnew]

theorem mark_stage_of_begun (hk : j.kind = .blockStatement) (hbegun : stage.begun = true)
    (hover : stage.over = false) (s : Scope V) :
    ({ j with stage := stage } : Job V).mark e exports s = { s with blocked := true } := by
  have hnew : ({ j with stage := stage } : Job V).kind = .blockStatement := hk
  exact mark_of_begun hnew hbegun hover s

theorem mark_stage_done (output : FragmentOutput V) (s : Scope V) :
    ({ j with stage := .done output } : Job V).mark e exports s = j.settle e exports s := by
  have hover : ({ j with stage := .done output } : Job V).stage.over = true := rfl
  exact mark_of_over hover s

theorem climbing_start (g₀ : ScopeGraph V) (free : String → Prop) (read : String) :
    Climbing g₀ free read { id := read } := ⟨Relation.ReflTransGen.refl, g₀.current_mk read⟩

theorem fits_done {output : FragmentOutput V} (houtput : j.outcome e exports final = output)
    (hpassed : j.Waits e exports → j.Passed g₀ free) :
    ({ j with stage := .done output } : Job V).Fits e exports g₀ final free :=
  ⟨houtput.symm, hpassed⟩

theorem turn_of_start (hs : j.stage = .start) (h : e.step j w = some (stage, w')) :
    j.Turn e exports g₀ final free d₀ w stage w' := by
  have hurl : j.stage.url? = none := by rw [hs]; rfl
  simp only [Evaluator.step, hs, Evaluator.firstStage, Option.some.injEq] at h
  cases hk : j.kind with
  | inlineExpression =>
    have hne : j.kind ≠ .blockStatement := by rw [hk]; decide
    have hcode : j.code e = e.transpile (Transpile.expressionModule j.content) j.context.read false := by
      unfold code
      rw [hk]
    simp only [hk] at h
    split at h
    · next err herr =>
      obtain ⟨rfl, rfl⟩ := Prod.mk.inj h
      have hmain : j.main e exports = .error err := main_of_code_error (hcode.trans herr)
      refine turn_of_quiet (fits_done ?_ ?_) rfl (mark_stage_of_kind_ne hne _) hurl rfl
      · simp only [outcome, hk, hmain, Except.bind]
      · intro hw
        simp [Waits, hk, hcode, herr] at hw
    · next c hc =>
      obtain ⟨rfl, rfl⟩ := Prod.mk.inj h
      exact turn_of_quiet ⟨hk, hcode.trans hc, climbing_start g₀ free _⟩ rfl
        (mark_stage_of_kind_ne hne _) hurl rfl
  | inlineMarkup =>
    have hne : j.kind ≠ .blockStatement := by rw [hk]; decide
    simp only [hk] at h
    obtain ⟨rfl, rfl⟩ := Prod.mk.inj h
    exact turn_of_quiet hk rfl (mark_stage_of_kind_ne hne _) hurl rfl
  | blockStatement =>
    simp only [hk] at h
    obtain ⟨rfl, rfl⟩ := Prod.mk.inj h
    refine turn_of_write ⟨hk, climbing_start g₀ free _⟩ rfl (ScopeGraph.size_modify _ _ _) ?_
      (ScopeGraph.scope?_modify_self _ _ _) ?_ hurl rfl
    · exact fun id hid => ScopeGraph.scope?_modify_of_ne hid
    · intro s
      rw [mark_of_not_begun (by rw [hs]; rfl)]
      exact (mark_stage_of_begun hk rfl rfl s).symm
  | blockMarkup =>
    have hne : j.kind ≠ .blockStatement := by rw [hk]; decide
    simp only [hk] at h
    split at h
    · next hempty =>
      obtain ⟨rfl, rfl⟩ := Prod.mk.inj h
      refine turn_of_quiet (fits_done ?_ ?_) rfl (mark_stage_of_kind_ne hne _) hurl rfl
      · simp [outcome, hk, hempty]
      · intro hw
        simp [Waits, hk, hempty] at hw
    · next hfull =>
      obtain ⟨rfl, rfl⟩ := Prod.mk.inj h
      exact turn_of_quiet ⟨hk, Bool.not_eq_true _ ▸ hfull⟩ rfl (mark_stage_of_kind_ne hne _) hurl rfl

/-! ### Expressions -/

theorem turn_of_expressionWaits {c : String} {wait : ScopeWait} (hs : j.stage = .expressionWaits c wait)
    (hfits : j.Fits e exports g₀ final free) (hsees : j.Sees e exports g₀ final free w)
    (h : e.step j w = some (stage, w')) : j.Turn e exports g₀ final free d₀ w stage w' := by
  simp only [Fits, hs] at hfits
  obtain ⟨hk, hc, hclimbing⟩ := hfits
  have hne : j.kind ≠ .blockStatement := by rw [hk]; decide
  simp only [Evaluator.step, hs] at h
  split at h
  · contradiction
  · next hover =>
    obtain ⟨rfl, rfl⟩ := Prod.mk.inj (Option.some.inj h)
    have hpassed := hsees.passes wait hclimbing hover
    exact turn_of_register ⟨hk, ⟨c, hc⟩, hpassed⟩ rfl (mark_stage_of_kind_ne hne _) hc
      (by rw [hs]; rfl) rfl

theorem turn_of_expressionImports {url : String} (hs : j.stage = .expressionImports url)
    (hfits : j.Fits e exports g₀ final free) (hsees : j.Sees e exports g₀ final free w)
    (h : e.step j w = some (stage, w')) : j.Turn e exports g₀ final free d₀ w stage w' := by
  simp only [Fits, hs] at hfits
  obtain ⟨hk, ⟨c, hc⟩, hpassed⟩ := hfits
  have hne : j.kind ≠ .blockStatement := by rw [hk]; decide
  have hurl : j.stage.url? = some url := by rw [hs]; rfl
  simp only [Evaluator.step, hs, hsees.imports url c hurl hc, main_of_exports hc] at h
  split at h
  · next err hmain =>
    obtain ⟨rfl, rfl⟩ := Prod.mk.inj (Option.some.inj h)
    refine turn_of_quiet_import hne (fits_done ?_ fun _ => hpassed) rfl hc hurl rfl
    simp only [outcome, hk, hmain, Except.bind]
  · next function hmain =>
    obtain ⟨rfl, rfl⟩ := Prod.mk.inj (Option.some.inj h)
    exact turn_of_quiet_import hne ⟨hk, hmain, hpassed⟩ rfl hc hurl rfl

theorem turn_of_expressionCalls {function : V} (hs : j.stage = .expressionCalls function)
    (hfits : j.Fits e exports g₀ final free) (h : e.step j w = some (stage, w')) :
    j.Turn e exports g₀ final free d₀ w stage w' := by
  simp only [Fits, hs] at hfits
  obtain ⟨hk, hmain, hpassed⟩ := hfits
  have hne : j.kind ≠ .blockStatement := by rw [hk]; decide
  have hurl : j.stage.url? = none := by rw [hs]; rfl
  simp only [Evaluator.step, hs] at h
  split at h
  · next err hcall =>
    obtain ⟨rfl, rfl⟩ := Prod.mk.inj (Option.some.inj h)
    refine turn_of_quiet (fits_done ?_ fun _ => hpassed) rfl (mark_stage_of_kind_ne hne _) hurl rfl
    simp only [outcome, hk, hmain, Except.bind, hcall]
  · next value hcall =>
    obtain ⟨rfl, rfl⟩ := Prod.mk.inj (Option.some.inj h)
    refine turn_of_quiet (fits_done ?_ fun _ => hpassed) rfl (mark_stage_of_kind_ne hne _) hurl rfl
    simp only [outcome, hk, hmain, Except.bind, hcall]

/-! ### Markup in a line -/

theorem turn_of_spanWaitsForComponents (hs : j.stage = .spanWaitsForComponents)
    (hfits : j.Fits e exports g₀ final free) (h : e.step j w = some (stage, w')) :
    j.Turn e exports g₀ final free d₀ w stage w' := by
  simp only [Fits, hs] at hfits
  have hk := hfits
  have hne : j.kind ≠ .blockStatement := by rw [hk]; decide
  have hurl : j.stage.url? = none := by rw [hs]; rfl
  have hcode : j.code e = e.transpile (Transpile.markupModule j.content) j.context.read true := by
    simp only [code, hk]
  simp only [Evaluator.step, hs, Evaluator.compile] at h
  split at h
  · split at h
    · next err herr =>
      obtain ⟨rfl, rfl⟩ := Prod.mk.inj (Option.some.inj h)
      have hmain : j.main e exports = .error err := main_of_code_error (hcode.trans herr)
      refine turn_of_quiet (fits_done ?_ ?_) rfl (mark_stage_of_kind_ne hne _) hurl rfl
      · simp only [outcome, hk, hmain]
      · intro hw
        simp [Waits, hk, hmain] at hw
    · next c hc =>
      obtain ⟨rfl, rfl⟩ := Prod.mk.inj (Option.some.inj h)
      have hc' := hcode.trans hc
      exact turn_of_register ⟨hk, c, hc'⟩ rfl (mark_stage_of_kind_ne hne _) hc' hurl rfl
  · contradiction

theorem turn_of_spanImports {url : String} (hs : j.stage = .spanImports url)
    (hfits : j.Fits e exports g₀ final free) (hsees : j.Sees e exports g₀ final free w)
    (h : e.step j w = some (stage, w')) : j.Turn e exports g₀ final free d₀ w stage w' := by
  simp only [Fits, hs] at hfits
  obtain ⟨hk, c, hc⟩ := hfits
  have hne : j.kind ≠ .blockStatement := by rw [hk]; decide
  have hurl : j.stage.url? = some url := by rw [hs]; rfl
  simp only [Evaluator.step, hs, hsees.imports url c hurl hc, main_of_exports hc] at h
  split at h
  · next err hmain =>
    obtain ⟨rfl, rfl⟩ := Prod.mk.inj (Option.some.inj h)
    refine turn_of_quiet_import hne (fits_done ?_ ?_) rfl hc hurl rfl
    · simp only [outcome, hk, hmain]
    · intro hw
      simp [Waits, hk, hmain] at hw
  · next factory hmain =>
    obtain ⟨rfl, rfl⟩ := Prod.mk.inj (Option.some.inj h)
    exact turn_of_quiet_import hne ⟨hk, hmain, climbing_start g₀ free _⟩ rfl hc hurl rfl

theorem turn_of_spanWaits {factory : V} {wait : ScopeWait} (hs : j.stage = .spanWaits factory wait)
    (hfits : j.Fits e exports g₀ final free) (hsees : j.Sees e exports g₀ final free w)
    (h : e.step j w = some (stage, w')) : j.Turn e exports g₀ final free d₀ w stage w' := by
  simp only [Fits, hs] at hfits
  obtain ⟨hk, hmain, hclimbing⟩ := hfits
  have hne : j.kind ≠ .blockStatement := by rw [hk]; decide
  simp only [Evaluator.step, hs] at h
  split at h
  · contradiction
  · next hover =>
    obtain ⟨rfl, rfl⟩ := Prod.mk.inj (Option.some.inj h)
    have hpassed := hsees.passes wait hclimbing hover
    refine turn_of_quiet (fits_done ?_ fun _ => hpassed) rfl (mark_stage_of_kind_ne hne _)
      (by rw [hs]; rfl) rfl
    simp only [outcome, hk, hmain]

/-! ### Statements -/

theorem settle_of_error {err : Error} (hk : j.kind = .blockStatement)
    (h : j.exported e exports = .error err) (s : Scope V) :
    j.settle e exports s = { s with blocked := false } := by
  simp only [settle, hk, h]

theorem settle_of_ok {found : Exports V} (hk : j.kind = .blockStatement)
    (h : j.exported e exports = .ok found) (s : Scope V) :
    j.settle e exports s = { s with bindings := Table.extend [] found, blocked := false } := by
  simp only [settle, hk, h]

theorem scope?_publish_of_ne {write id : String} (h : id ≠ write) (found : Exports V) (g : ScopeGraph V) :
    (((g.reset write).setMany write found).unblock write).scope? id = g.scope? id := by
  rw [ScopeGraph.scope?_unblock, if_neg h, ScopeGraph.scope?_setMany, if_neg h, ScopeGraph.scope?_reset,
    if_neg h]

theorem scope?_publish (write : String) (found : Exports V) (g : ScopeGraph V) :
    (((g.reset write).setMany write found).unblock write).scope? write =
      (g.scope? write).map fun s => { s with bindings := Table.extend [] found, blocked := false } := by
  rw [ScopeGraph.scope?_unblock, if_pos rfl, ScopeGraph.scope?_setMany, if_pos rfl,
    ScopeGraph.scope?_reset, if_pos rfl, Option.map_map, Option.map_map]
  rfl

theorem size_publish (write : String) (found : Exports V) (g : ScopeGraph V) :
    (((g.reset write).setMany write found).unblock write).size = g.size := by
  unfold ScopeGraph.unblock ScopeGraph.setMany ScopeGraph.reset
  rw [ScopeGraph.size_modify, ScopeGraph.size_rebind, ScopeGraph.size_rebind]

theorem turn_of_statementsWait {wait : ScopeWait} (hs : j.stage = .statementsWait wait)
    (hfits : j.Fits e exports g₀ final free) (hsees : j.Sees e exports g₀ final free w)
    (h : e.step j w = some (stage, w')) : j.Turn e exports g₀ final free d₀ w stage w' := by
  simp only [Fits, hs] at hfits
  obtain ⟨hk, hclimbing⟩ := hfits
  have hurl : j.stage.url? = none := by rw [hs]; rfl
  have hblocked : ∀ s, j.mark e exports s = { s with blocked := true } :=
    mark_of_begun hk (by rw [hs]; rfl) (by rw [hs]; rfl)
  have hcode : j.code e = e.transpile j.content j.context.read true := by simp only [code, hk]
  simp only [Evaluator.step, hs, Evaluator.compile] at h
  split at h
  · contradiction
  · next hover =>
    have hpassed := hsees.passes wait hclimbing hover
    split at h
    · next err herr =>
      obtain ⟨rfl, rfl⟩ := Prod.mk.inj (Option.some.inj h)
      have hexported : j.exported e exports = .error err := by
        rw [exported, hcode, herr]
        rfl
      refine turn_of_write (fits_done ?_ fun _ => hpassed) rfl (ScopeGraph.size_modify _ _ _) ?_
        (ScopeGraph.scope?_modify_self _ _ _) ?_ hurl rfl
      · simp only [outcome, hk, hexported]
      · exact fun id hid => ScopeGraph.scope?_modify_of_ne hid
      · intro s
        rw [hblocked, mark_stage_done, settle_of_error hk hexported]
    · next c hc =>
      obtain ⟨rfl, rfl⟩ := Prod.mk.inj (Option.some.inj h)
      have hc' := hcode.trans hc
      refine turn_of_register ⟨hk, ⟨c, hc'⟩, hpassed⟩ rfl ?_ hc' hurl rfl
      intro s
      rw [hblocked, mark_stage_of_begun hk rfl rfl]

theorem turn_of_statementsImport {url : String} (hs : j.stage = .statementsImport url)
    (hfits : j.Fits e exports g₀ final free) (hsees : j.Sees e exports g₀ final free w)
    (h : e.step j w = some (stage, w')) : j.Turn e exports g₀ final free d₀ w stage w' := by
  simp only [Fits, hs] at hfits
  obtain ⟨hk, ⟨c, hc⟩, hpassed⟩ := hfits
  have hurl : j.stage.url? = some url := by rw [hs]; rfl
  have hblocked : ∀ s, j.mark e exports s = { s with blocked := true } :=
    mark_of_begun hk (by rw [hs]; rfl) (by rw [hs]; rfl)
  have hexported : exports c = j.exported e exports := by
    rw [exported, hc]
    rfl
  simp only [Evaluator.step, hs, hsees.imports url c hurl hc, hexported] at h
  split at h
  · next err hfailed =>
    obtain ⟨rfl, rfl⟩ := Prod.mk.inj (Option.some.inj h)
    refine turn_of_import (fits_done ?_ fun _ => hpassed) rfl (ScopeGraph.size_modify _ _ _) ?_
      (ScopeGraph.scope?_modify_self _ _ _) ?_ hc hurl rfl
    · simp only [outcome, hk, hfailed]
    · exact fun id hid => ScopeGraph.scope?_modify_of_ne hid
    · intro s
      rw [hblocked, mark_stage_done, settle_of_error hk hfailed]
  · next found hfound =>
    obtain ⟨rfl, rfl⟩ := Prod.mk.inj (Option.some.inj h)
    refine turn_of_import (fits_done ?_ fun _ => hpassed) rfl (size_publish _ _ _) ?_
      (scope?_publish _ _ _) ?_ hc hurl rfl
    · simp only [outcome, hk, hfound]
    · exact fun id hid => scope?_publish_of_ne hid found _
    · intro s
      rw [hblocked, mark_stage_done, settle_of_ok hk hfound]

/-! ### Blocks of markup -/

theorem turn_of_blockWaitsForComponents (hs : j.stage = .blockWaitsForComponents)
    (hfits : j.Fits e exports g₀ final free) (h : e.step j w = some (stage, w')) :
    j.Turn e exports g₀ final free d₀ w stage w' := by
  simp only [Fits, hs] at hfits
  obtain ⟨hk, hfull⟩ := hfits
  have hne : j.kind ≠ .blockStatement := by rw [hk]; decide
  simp only [Evaluator.step, hs] at h
  split at h
  · obtain ⟨rfl, rfl⟩ := Prod.mk.inj (Option.some.inj h)
    exact turn_of_quiet ⟨hk, hfull, climbing_start g₀ free _⟩ rfl (mark_stage_of_kind_ne hne _)
      (by rw [hs]; rfl) rfl
  · contradiction

theorem turn_of_blockWaits {wait : ScopeWait} (hs : j.stage = .blockWaits wait)
    (hfits : j.Fits e exports g₀ final free) (hsees : j.Sees e exports g₀ final free w)
    (h : e.step j w = some (stage, w')) : j.Turn e exports g₀ final free d₀ w stage w' := by
  simp only [Fits, hs] at hfits
  obtain ⟨hk, hfull, hclimbing⟩ := hfits
  have hne : j.kind ≠ .blockStatement := by rw [hk]; decide
  have hurl : j.stage.url? = none := by rw [hs]; rfl
  have hcode : j.code e = e.transpile (Transpile.markupModule j.content) j.context.read true := by
    simp only [code, hk]
  simp only [Evaluator.step, hs] at h
  split at h
  · contradiction
  · next hover =>
    have hpassed := hsees.passes wait hclimbing hover
    have hread := hsees.reads hpassed
    simp only [Evaluator.showBlock, Evaluator.compile] at h
    split at h
    · next name hname =>
      rw [hread name] at h
      split at h
      · next c hc =>
        obtain ⟨rfl, rfl⟩ := Prod.mk.inj (Option.some.inj h)
        refine turn_of_quiet (fits_done ?_ fun _ => hpassed) rfl (mark_stage_of_kind_ne hne _) hurl rfl
        simp only [outcome, hk, hfull, hname, hc, Bool.false_eq_true, if_false]
      · next hc =>
        obtain ⟨rfl, rfl⟩ := Prod.mk.inj (Option.some.inj h)
        refine turn_of_quiet (fits_done ?_ fun _ => hpassed) rfl (mark_stage_of_kind_ne hne _) hurl rfl
        simp only [outcome, hk, hfull, hname, hc, Bool.false_eq_true, if_false]
    · next hname =>
      split at h
      · next err herr =>
        obtain ⟨rfl, rfl⟩ := Prod.mk.inj (Option.some.inj h)
        have hmain : j.main e exports = .error err := main_of_code_error (hcode.trans herr)
        refine turn_of_quiet (fits_done ?_ fun _ => hpassed) rfl (mark_stage_of_kind_ne hne _) hurl rfl
        simp only [outcome, hk, hfull, hname, hmain, Bool.false_eq_true, if_false]
      · next c hc =>
        obtain ⟨rfl, rfl⟩ := Prod.mk.inj (Option.some.inj h)
        have hc' := hcode.trans hc
        exact turn_of_register ⟨hk, hfull, hname, ⟨c, hc'⟩, hpassed⟩ rfl (mark_stage_of_kind_ne hne _) hc'
          hurl rfl

theorem turn_of_blockImports {url : String} (hs : j.stage = .blockImports url)
    (hfits : j.Fits e exports g₀ final free) (hsees : j.Sees e exports g₀ final free w)
    (h : e.step j w = some (stage, w')) : j.Turn e exports g₀ final free d₀ w stage w' := by
  simp only [Fits, hs] at hfits
  obtain ⟨hk, hfull, hname, ⟨c, hc⟩, hpassed⟩ := hfits
  have hne : j.kind ≠ .blockStatement := by rw [hk]; decide
  have hurl : j.stage.url? = some url := by rw [hs]; rfl
  simp only [Evaluator.step, hs, hsees.imports url c hurl hc, main_of_exports hc] at h
  split at h
  · next err hmain =>
    obtain ⟨rfl, rfl⟩ := Prod.mk.inj (Option.some.inj h)
    refine turn_of_quiet_import hne (fits_done ?_ fun _ => hpassed) rfl hc hurl rfl
    simp only [outcome, hk, hfull, hname, hmain, Bool.false_eq_true, if_false]
  · next factory hmain =>
    obtain ⟨rfl, rfl⟩ := Prod.mk.inj (Option.some.inj h)
    refine turn_of_quiet_import hne (fits_done ?_ fun _ => hpassed) rfl hc hurl rfl
    simp only [outcome, hk, hfull, hname, hmain, Bool.false_eq_true, if_false]

/-- Each stage of a job keeps up what the job holds. -/
theorem turn_of_step (hfits : j.Fits e exports g₀ final free) (hsees : j.Sees e exports g₀ final free w)
    (h : e.step j w = some (stage, w')) : j.Turn e exports g₀ final free d₀ w stage w' := by
  cases hs : j.stage with
  | start => exact turn_of_start hs h
  | expressionWaits code wait => exact turn_of_expressionWaits hs hfits hsees h
  | expressionImports url => exact turn_of_expressionImports hs hfits hsees h
  | expressionCalls function => exact turn_of_expressionCalls hs hfits h
  | spanWaitsForComponents => exact turn_of_spanWaitsForComponents hs hfits h
  | spanImports url => exact turn_of_spanImports hs hfits hsees h
  | spanWaits factory wait => exact turn_of_spanWaits hs hfits hsees h
  | statementsWait wait => exact turn_of_statementsWait hs hfits hsees h
  | statementsImport url => exact turn_of_statementsImport hs hfits hsees h
  | blockWaitsForComponents => exact turn_of_blockWaitsForComponents hs hfits h
  | blockWaits wait => exact turn_of_blockWaits hs hfits hsees h
  | blockImports url => exact turn_of_blockImports hs hfits hsees h
  | done output =>
    simp only [Evaluator.step, hs] at h
    contradiction

/-! ### Waits that climb on -/

theorem Sees.climbing_getD (h : j.Sees e exports g₀ final free w) {wait : ScopeWait}
    (hclimbing : Climbing g₀ free j.context.read wait) (count : Nat) :
    Climbing g₀ free j.context.read ((w.graph.goOn count wait).getD wait) := by
  cases hgo : w.graph.goOn count wait with
  | none => exact hclimbing
  | some wait' => exact h.climbs count wait wait' hclimbing hgo

/-- A job that climbs on with its wait takes a turn; one without a wait stays as it is. -/
theorem turn_of_climb (hfits : j.Fits e exports g₀ final free) (hsees : j.Sees e exports g₀ final free w)
    (count : Nat) :
    ({ j with stage := j.stage.climb w.graph count } : Job V) = j ∨
      j.Turn e exports g₀ final free d₀ w (j.stage.climb w.graph count) w := by
  unfold Fits at hfits
  obtain ⟨kind, content, context, stage⟩ := j
  cases stage with
  | expressionWaits code wait =>
    obtain ⟨hk, hc, hclimbing⟩ := hfits
    have hne : kind ≠ .blockStatement := by rintro rfl; contradiction
    refine Or.inr (turn_of_quiet ⟨hk, hc, hsees.climbing_getD hclimbing count⟩ rfl ?_ rfl rfl)
    exact mark_stage_of_kind_ne hne _
  | spanWaits factory wait =>
    obtain ⟨hk, hmain, hclimbing⟩ := hfits
    have hne : kind ≠ .blockStatement := by rintro rfl; contradiction
    refine Or.inr (turn_of_quiet ⟨hk, hmain, hsees.climbing_getD hclimbing count⟩ rfl ?_ rfl rfl)
    exact mark_stage_of_kind_ne hne _
  | statementsWait wait =>
    obtain ⟨hk, hclimbing⟩ := hfits
    refine Or.inr (turn_of_quiet ⟨hk, hsees.climbing_getD hclimbing count⟩ rfl ?_ rfl rfl)
    intro s
    rw [mark_of_begun hk rfl rfl]
    exact (mark_stage_of_begun hk rfl rfl s).symm
  | blockWaits wait =>
    obtain ⟨hk, hfull, hclimbing⟩ := hfits
    have hne : kind ≠ .blockStatement := by rintro rfl; contradiction
    refine Or.inr (turn_of_quiet ⟨hk, hfull, hsees.climbing_getD hclimbing count⟩ rfl ?_ rfl rfl)
    exact mark_stage_of_kind_ne hne _
  | _ => exact Or.inl rfl

end Job

end LiveNotes
