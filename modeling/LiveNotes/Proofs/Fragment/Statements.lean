import LiveNotes.Proofs.Fragment.Turn
import LiveNotes.Proofs.Scope.Block

/-! A block of statements that is evaluated by itself. It is done as soon as the scopes that it reads are
free, in four stages, and its end is known from the transpiler and the host: what fails leaves the
bindings as they were, and what succeeds replaces them all. No other scope is touched, and the URL of the
module is given back. -/

namespace LiveNotes

/-- What modules export is handed over as a table in order. -/
def Host.Orders {V : Type} (h : Host V) : Prop :=
  ∀ urls url exports, h.evaluate urls url = .ok exports → Table.InOrder exports

theorem inOrder_exports {registry : Option (Registry String × String)} {code url : String}
    {exports : Exports String} (h : StaticHost.exports registry code url = .ok exports) :
    Table.InOrder exports := by
  unfold StaticHost.exports at h
  extract_lets missing at h
  clear_value missing
  cases missing with
  | some source => contradiction
  | none =>
    dsimp only at h
    split at h
    · exact Except.ok.inj h ▸ Table.inOrder_ofList _
    · contradiction

theorem orders_staticHost (registry : Option (Registry String × String)) :
    (staticHost registry).Orders := by
  intro urls url exports h
  change StaticHost.evaluate registry urls url = .ok exports at h
  unfold StaticHost.evaluate at h
  split at h
  · exact inOrder_exports h
  · contradiction

namespace Job

variable {V : Type} {e : Evaluator V} {j : Job V} {w w' : World V} {stage : Stage V} {count : Nat}

/-! ### Going on -/

theorem runFor_of_step (h : e.step j w = some (stage, w')) :
    runFor e (count + 1) j w = runFor e count { j with stage := stage } w' := by
  rw [runFor, h]

theorem runFor_of_waits (h : e.step j w = none) :
    runFor e (count + 1) j w = ({ j with stage := j.stage.hold w.graph }, w) := by
  rw [runFor, h]

theorem runFor_of_done {output : FragmentOutput V} (h : j.stage = .done output) :
    runFor e count j w = (j, w) := by
  cases count with
  | zero => rfl
  | succ count =>
    have hnone : e.step j w = none := by
      unfold Evaluator.step
      rw [h]
    rw [runFor_of_waits hnone, h]
    obtain ⟨kind, content, context, s⟩ := j
    obtain rfl : s = .done output := h
    rfl

/-! ### The end of statements -/

/-- What a block of statements imports from a desk. -/
def imported (e : Evaluator V) (j : Job V) (d : Desk) : Except Error (Exports V) :=
  (e.transpile j.content j.context.read true).bind fun code => (e.loader.importCode d code).1

/-- The output of a block of statements that has been able to import, or has not. -/
def concluded : Except Error (Exports V) → FragmentOutput V
  | .error err => .error err.message
  | .ok exports => .published exports.names

/-- The graph at the end of a block of statements. -/
def released (write : String) : Except Error (Exports V) → ScopeGraph V → ScopeGraph V
  | .error _, g => g.unblock write
  | .ok exports, g => ((g.reset write).setMany write exports).unblock write

/-- The desk at the end of a block of statements. -/
def handedBack (e : Evaluator V) (j : Job V) (d : Desk) : Desk :=
  match e.transpile j.content j.context.read true with
  | .error _ => d
  | .ok code => (e.loader.importCode d code).2

theorem step_statementsImport {url : String} (hs : j.stage = .statementsImport url) :
    e.step j w = some (.done (concluded (e.loader.importUrl w.desk url).1),
      { w with
        graph := released j.context.write (e.loader.importUrl w.desk url).1 w.graph
        desk := (e.loader.importUrl w.desk url).2 }) := by
  cases h : e.loader.importUrl w.desk url with
  | mk found desk =>
    cases found with
    | error err =>
      simp only [Evaluator.step, hs, Evaluator.importUrl, h, Evaluator.statementsFail, concluded,
        released]
    | ok exports =>
      simp only [Evaluator.step, hs, Evaluator.importUrl, h, Evaluator.publish, concluded, released]

/-- Past its wait, a block of statements is transpiled and imported. -/
theorem runFor_statementsWait {wait : ScopeWait} (hs : j.stage = .statementsWait wait)
    (hwait : w.graph.await? wait = none) :
    runFor e (count + 2) j w =
      ({ j with stage := .done (concluded (j.imported e w.desk)) },
        { w with
          graph := released j.context.write (j.imported e w.desk) w.graph
          desk := j.handedBack e w.desk }) := by
  unfold imported handedBack
  cases hcode : e.transpile j.content j.context.read true with
  | error err =>
    have hstep : e.step j w =
        some (.done (.error err.message), { w with graph := w.graph.unblock j.context.write }) := by
      simp only [Evaluator.step, hs, hwait, Evaluator.compile, hcode, Evaluator.statementsFail]
    rw [runFor_of_step hstep, runFor_of_done rfl]
    rfl
  | ok code =>
    have hstep : e.step j w =
        some (.statementsImport (e.register w code).1, (e.register w code).2) := by
      simp only [Evaluator.step, hs, hwait, Evaluator.compile, hcode]
    rw [runFor_of_step hstep, runFor_of_step (step_statementsImport rfl), runFor_of_done rfl]
    rfl

/-- The graph while a block of statements waits. -/
def held (j : Job V) (w : World V) : ScopeGraph V := w.graph.block j.context.write

/-- A block of statements is done in one go exactly if the scopes that it reads are free. -/
theorem run_statements (hk : j.kind = .blockStatement) (hs : j.stage = .start) :
    (Clear (j.held w).parent? (j.held w).Open j.context.read →
      j.run e w = ({ j with stage := .done (concluded (j.imported e w.desk)) },
        { w with
          graph := released j.context.write (j.imported e w.desk) (j.held w)
          desk := j.handedBack e w.desk })) ∧
      (¬ Clear (j.held w).parent? (j.held w).Open j.context.read →
        (j.run e w).1.output? = none ∧ (j.run e w).2 = { w with graph := j.held w }) := by
  have hstep : e.step j w =
      some (.statementsWait { id := j.context.read }, { w with graph := j.held w }) := by
    simp only [Evaluator.step, hs, Evaluator.firstStage, hk]
    rfl
  have hcurrent := (j.held w).current_mk j.context.read
  refine ⟨fun hclear => ?_, fun hclear => ?_⟩
  · have hwait := ScopeGraph.await?_eq_none hcurrent hclear
    rw [run, stageBound, runFor_of_step hstep, runFor_statementsWait rfl hwait]
    rfl
  · have hnone : e.step { j with stage := .statementsWait { id := j.context.read } }
        { w with graph := j.held w } = none := by
      cases hwait : (j.held w).await? { id := j.context.read } with
      | none => exact absurd (ScopeGraph.goOn_eq_none hcurrent hwait) hclear
      | some wait => simp only [Evaluator.step, hwait]
    rw [run, stageBound, runFor_of_step hstep, runFor_of_waits hnone]
    exact ⟨rfl, rfl⟩

/-! ### What is left -/

theorem scope?_released_of_ne {write id : String} (h : id ≠ write)
    (found : Except Error (Exports V)) (g : ScopeGraph V) :
    (released write found g).scope? id = g.scope? id := by
  cases found with
  | error err => rw [released, ScopeGraph.scope?_unblock, if_neg h]
  | ok exports => exact scope?_publish_of_ne h exports g

theorem isBlocked_released (write : String) (found : Except Error (Exports V)) (g : ScopeGraph V) :
    (released write found g).isBlocked write = false := by
  cases found with
  | error err => exact (ScopeGraph.isBlocked_unblock _ write write).trans (if_pos rfl)
  | ok exports => exact (ScopeGraph.isBlocked_unblock _ write write).trans (if_pos rfl)

/-- A block that is taken away again leaves what the scope binds. -/
theorem scope?_released_error (err : Error) (j : Job V) (w : World V) :
    (released j.context.write (.error err) (j.held w)).scope? j.context.write =
      (w.graph.scope? j.context.write).map fun s => { s with blocked := false } := by
  rw [released, held, ScopeGraph.scope?_unblock, if_pos rfl, ScopeGraph.scope?_block, if_pos rfl,
    Option.map_map]
  rfl

theorem scope?_released_ok {exports : Exports V} (h : Table.InOrder exports) (j : Job V) (w : World V) :
    (released j.context.write (.ok exports) (j.held w)).scope? j.context.write =
      (w.graph.scope? j.context.write).map fun s =>
        { s with bindings := exports, blocked := false } := by
  have hall : Table.extend [] exports = exports := Table.extend_of_inOrder (t := []) h
  rw [released, scope?_publish, held, ScopeGraph.scope?_block, if_pos rfl, Option.map_map, hall]
  rfl

/-- What modules export is in order, as the host hands it over. -/
theorem inOrder_imported (hhost : e.loader.host.Orders) {d : Desk} {exports : Exports V}
    (h : j.imported e d = .ok exports) : Table.InOrder exports := by
  unfold imported at h
  cases hcode : e.transpile j.content j.context.read true with
  | error err =>
    rw [hcode] at h
    contradiction
  | ok code =>
    rw [hcode] at h
    exact hhost _ _ _ h

/-- The URLs at the end of a block of statements: one more has been made, if there was code, and that one
has been given back. -/
def urlsAfter (e : Evaluator V) (j : Job V) (d : Desk) : UrlTable :=
  match e.transpile j.content j.context.read true with
  | .error _ => d.urls
  | .ok code =>
    let (url, urls) := e.loader.host.createUrl d.urls (e.loader.freshCode d.imports code)
    e.loader.host.revokeUrl urls url

theorem urls_handedBack (e : Evaluator V) (j : Job V) (d : Desk) :
    (j.handedBack e d).urls = j.urlsAfter e d := by
  unfold handedBack urlsAfter
  cases e.transpile j.content j.context.read true with
  | error err => rfl
  | ok code => rfl

/-- A table of URLs has none more when one has been made and given back. -/
theorem live_urlsAfter (hcreate : e.loader.host.createUrl = UrlTable.create)
    (hrevoke : e.loader.host.revokeUrl = UrlTable.revoke) {d : Desk}
    (hnew : UrlTable.url d.urls.made ∉ d.urls.live.map Prod.fst) :
    (j.urlsAfter e d).live = d.urls.live ∧ (j.urlsAfter e d).made ≤ d.urls.made + 1 := by
  unfold urlsAfter
  cases e.transpile j.content j.context.read true with
  | error err => exact ⟨rfl, Nat.le_succ _⟩
  | ok code =>
    rw [hcreate, hrevoke]
    refine ⟨?_, Nat.le_refl _⟩
    simp only [UrlTable.create, UrlTable.revoke, List.filter_cons, bne_self_eq_false,
      Bool.false_eq_true, if_false]
    rw [List.filter_eq_self]
    intro p hp
    simp only [bne_iff_ne, ne_eq]
    exact fun heq => hnew (heq ▸ List.mem_map_of_mem hp)

/-- What a block of statements has made of the world when it is done. -/
structure Leaves (e : Evaluator V) (j : Job V) (w : World V) (output : FragmentOutput V)
    (w' : World V) : Prop where
  failed : ∀ err, j.imported e w.desk = .error err → output = .error err.message ∧
    w'.graph.scope? j.context.write =
      (w.graph.scope? j.context.write).map fun s => { s with blocked := false }
  published : ∀ exports, j.imported e w.desk = .ok exports →
    output = .published exports.names ∧ exports.names.Pairwise (· < ·) ∧
      w'.graph.scope? j.context.write = (w.graph.scope? j.context.write).map fun s =>
        { s with bindings := exports, blocked := false }
  free : w'.graph.isBlocked j.context.write = false
  other : ∀ id, id ≠ j.context.write → w'.graph.scope? id = w.graph.scope? id
  urls : w'.desk.urls = j.urlsAfter e w.desk
  /-- In a table of URLs none is left. -/
  live : e.loader.host.createUrl = UrlTable.create → e.loader.host.revokeUrl = UrlTable.revoke →
    UrlTable.url w.desk.urls.made ∉ w.desk.urls.live.map Prod.fst →
      w'.desk.urls.live = w.desk.urls.live ∧ w'.desk.urls.made ≤ w.desk.urls.made + 1

theorem leaves_of_clear (hhost : e.loader.host.Orders) (j : Job V) (w : World V) :
    j.Leaves e w (concluded (j.imported e w.desk))
      { w with
        graph := released j.context.write (j.imported e w.desk) (j.held w)
        desk := j.handedBack e w.desk } where
  failed := by
    intro err herr
    rw [herr]
    exact ⟨rfl, scope?_released_error err j w⟩
  published := by
    intro exports hexports
    have horder := inOrder_imported hhost hexports
    rw [hexports]
    exact ⟨rfl, horder, scope?_released_ok horder j w⟩
  free := isBlocked_released _ _ _
  other := by
    intro id hid
    refine (scope?_released_of_ne hid _ _).trans ?_
    rw [held, ScopeGraph.scope?_block, if_neg hid]
  urls := urls_handedBack e j w.desk
  live := by
    intro hcreate hrevoke hnew
    have hlive := live_urlsAfter (j := j) hcreate hrevoke hnew
    rwa [← urls_handedBack] at hlive

/-- A block of statements that is evaluated by itself ends exactly if the scopes that it reads are free
while it holds the one that it writes. Then it has replaced all bindings by what its module exports, or
has left them where it has failed; it has taken its block away, and touched no other scope. -/
theorem statements_settle (hhost : e.loader.host.Orders) (hk : j.kind = .blockStatement)
    (hs : j.stage = .start) (w : World V) :
    (∀ output, (j.run e w).1.output? = some output → j.Leaves e w output (j.run e w).2) ∧
      ((j.run e w).1.output?.isSome = true ↔
        Clear (j.held w).parent? (j.held w).Open j.context.read) := by
  obtain ⟨hends, hwaits⟩ := run_statements (e := e) (w := w) hk hs
  by_cases hclear : Clear (j.held w).parent? (j.held w).Open j.context.read
  · rw [hends hclear]
    refine ⟨fun output houtput => ?_, iff_of_true rfl hclear⟩
    obtain rfl := Option.some.inj houtput
    exact leaves_of_clear hhost j w
  · obtain ⟨hnone, -⟩ := hwaits hclear
    rw [hnone]
    exact ⟨fun output houtput => (nomatch houtput), iff_of_false Bool.false_ne_true hclear⟩

/-- Statements that follow a scope with an old binding. -/
def totals : Job String where
  kind := .blockStatement
  content := "export const total = 4;\nexport function f() \x7b\x7d"
  context := { read := "page/a.md", write := "page/a.md/0" }

def staleWorld : World String where
  graph := ((ScopeGraph.new.child rootScopeId "page/a.md").child "page/a.md" "page/a.md/0").set
    "page/a.md/0" "stale" "old"
  desk := { store := default }

/-- An evaluator on the static host. -/
def staticEvaluator : Evaluator String := { loader := { host := staticHost none } }

theorem statements_settle_totals :
    ((staticHost none).Orders ∧ totals.kind = .blockStatement ∧ totals.stage = .start) ∧
      (totals.run staticEvaluator staleWorld).1.output? = some (.published ["f", "total"]) ∧
      (∀ output, (totals.run staticEvaluator staleWorld).1.output? = some output →
        totals.Leaves staticEvaluator staleWorld output (totals.run staticEvaluator staleWorld).2) ∧
      ((totals.run staticEvaluator staleWorld).1.output?.isSome = true ↔
        Clear (totals.held staleWorld).parent? (totals.held staleWorld).Open "page/a.md") :=
  ⟨⟨orders_staticHost none, rfl, rfl⟩, by decide +kernel,
    statements_settle (e := staticEvaluator) (orders_staticHost none) rfl rfl staleWorld⟩

end Job

end LiveNotes
