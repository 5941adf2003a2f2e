import LiveNotes.Proofs.Document.Order
import LiveNotes.Proofs.Document.Pass
import LiveNotes.Proofs.Fragment.Hold

/-! The scopes of one document through all passes of its editor and all its reading views. Evaluation
fills scopes and blocks them but moves none; so after each pass that finds fragments the scopes are those
of the fragments alone, in a chain below the page. What only one of them binds is seen from those behind
it and from no other. -/

namespace LiveNotes

open ScopeGraph

variable {V : Type} {e : Evaluator V}

/-! ### Evaluation -/

section

variable {j : Job V} {jobs jobs' : List (Job V)} {w w' : World V} {stage : Stage V} {page : String}
  {count : Nat}

/-- A stage of a job leaves all scopes where they are, and touches no scope but its own. -/
theorem exists_operations_of_step (h : e.step j w = some (stage, w')) :
    ∃ ops : List (Operation V), (∀ op ∈ ops, op.KeepsLinks ∧ op.handle = j.context.write) ∧
      w'.graph = Operation.run ops w.graph := by
  cases hholds : j.stage.holds with
  | false =>
    cases hbegun : j.stage.begun with
    | true => exact ⟨[], by simp, Evaluations.graph_of_step hbegun hholds h⟩
    | false =>
      unfold Evaluator.step at h
      rw [Stage.eq_start_of_begun_eq_false hbegun] at h
      by_cases hk : j.kind = .blockStatement
      · unfold Evaluator.firstStage at h
        rw [hk] at h
        obtain ⟨-, rfl⟩ := Prod.mk.inj (Option.some.inj h)
        exact ⟨[.block j.context.write], by simp [Operation.KeepsLinks, Operation.handle], rfl⟩
      · have hgraph := Evaluations.graph_firstStage (e := e) hk w
        rw [Option.some.inj h] at hgraph
        exact ⟨[], by simp, hgraph⟩
  | true =>
    unfold Evaluator.step at h
    cases hs : j.stage with
    | statementsWait wait =>
      rw [hs] at h
      dsimp only at h
      split at h
      · contradiction
      · unfold Evaluator.compile at h
        split at h
        · obtain ⟨-, rfl⟩ := Prod.mk.inj (Option.some.inj h)
          exact ⟨[.unblock j.context.write], by simp [Operation.KeepsLinks, Operation.handle], rfl⟩
        · obtain ⟨-, rfl⟩ := Prod.mk.inj (Option.some.inj h)
          exact ⟨[], by simp, rfl⟩
    | statementsImport url =>
      rw [hs] at h
      dsimp only at h
      split at h
      · obtain ⟨-, rfl⟩ := Prod.mk.inj (Option.some.inj h)
        exact ⟨[.unblock j.context.write], by simp [Operation.KeepsLinks, Operation.handle], rfl⟩
      · next exports _ =>
        obtain ⟨-, rfl⟩ := Prod.mk.inj (Option.some.inj h)
        refine ⟨[.reset j.context.write, .setMany j.context.write exports, .unblock j.context.write],
          ?_, rfl⟩
        simp [Operation.KeepsLinks, Operation.handle]
    | _ =>
      rw [hs] at hholds
      contradiction

theorem spine_of_interleaves (hw : w.graph.Spine page count)
    (hrun : Job.Interleaves e (jobs, w) (jobs', w')) :
    w'.graph.Spine page count ∧ jobs'.map Job.task = jobs.map Job.task := by
  generalize hend : (jobs', w') = b at hrun
  induction hrun generalizing jobs' w' with
  | refl =>
    obtain ⟨rfl, rfl⟩ := Prod.mk.inj hend
    exact ⟨hw, rfl⟩
  | @tail b c _ hmove ih =>
    obtain ⟨jobs₁, w₁⟩ := b
    obtain ⟨hspine, htask⟩ := ih rfl
    subst hend
    refine ⟨?_, hmove.task.trans htask⟩
    cases hmove with
    | advance hadvances _ =>
      cases hadvances with
      | step hstep =>
        obtain ⟨ops, hops, hgraph⟩ := exists_operations_of_step hstep
        rw [hgraph]
        exact hspine.run fun op hop => (hops op hop).1
      | climb _ => exact hspine

end

/-! ### Reading views -/

namespace Preview

variable {g : ScopeGraph V} {p q : Preview V} {w w' : World V} {page : String} {index count : Nat}
  {fs : List Fragment} {outputs : List (FragmentKind × FragmentOutput V)}

theorem spine_chain (h : g.Spine page (index + 2)) (hinj : Function.Injective (spine page)) :
    (chain page index (spine page (index + 1)) fs g).2.Spine page (index + 2 + fs.length) := by
  induction fs generalizing index g with
  | nil => exact h
  | cons f fs ih =>
    have hcut := h.cut hinj (k := index + 2) (Nat.succ_pos _)
    rw [Nat.min_self] at hcut
    have hgrown := hcut.grow hinj (i := index + 1) (Nat.lt_succ_self _)
    rw [Nat.max_eq_right (by omega)] at hgrown
    have hlength : index + 2 + (f :: fs).length = index + 1 + 2 + fs.length := by
      rw [List.length_cons]
      omega
    rw [hlength]
    exact ih hgrown

theorem readScope_eq_spine (page : String) (i : Nat) : readScope page page 0 i = spine page (i + 1) := by
  cases i with
  | zero => rfl
  | succ i =>
    rw [readScope, if_neg (Nat.succ_ne_zero i)]
    exact congrArg (fragmentScopeId page) (by omega)

theorem length_chain (page : String) (index : Nat) (read : String) (fs : List Fragment)
    (g : ScopeGraph V) : (chain page index read fs g).1.length = fs.length := by
  induction fs generalizing index read g with
  | nil => rfl
  | cons f fs ih =>
    simp only [chain, List.length_cons]
    rw [ih]

theorem length_outputs {jobs : List (Job V)} (hq : q.stage = .running jobs)
    (houtputs : q.outputs? = some outputs) : outputs.length = jobs.length := by
  unfold outputs? at houtputs
  rw [hq] at houtputs
  dsimp only at houtputs
  clear hq
  induction jobs generalizing outputs with
  | nil =>
    rw [List.mapM_nil] at houtputs
    rw [← Option.some.inj houtputs]
    rfl
  | cons j jobs ih =>
    rw [List.mapM_cons, Option.bind_eq_bind, Option.bind_eq_some_iff] at houtputs
    obtain ⟨output, -, hrest⟩ := houtputs
    rw [Option.bind_eq_bind, Option.bind_eq_some_iff] at hrest
    obtain ⟨rest, hrest, hcons⟩ := hrest
    rw [← Option.some.inj hcons, List.length_cons, List.length_cons, ih hrest]

/-- A reading view that gets all its outputs has made the scopes of its fragments, and no others are
left. -/
theorem spine_of_outputs (hw : w.graph.Spine p.document.scopeId count) (hcount : 0 < count)
    (hp : p.stage = .start) (hrun : Interleaves e (p, w) (q, w')) (houtputs : q.outputs? = some outputs) :
    w'.graph.Spine p.document.scopeId (outputs.length + 2) ∧
      outputs.length = (Document.scan p.text none).length ∧
      q.document = p.document ∧ ∃ jobs, q.stage = .running jobs ∧ jobs.length = outputs.length ∧
      ∀ i j, jobs[i]? = some j → j.context.read = spine p.document.scopeId (i + 1) ∧
        j.context.write = spine p.document.scopeId (i + 2) := by
  have hunder := Under.of_interleaves hp hrun
  cases hunder with
  | start =>
    unfold outputs? at houtputs
    rw [hp] at houtputs
    contradiction
  | waiting _ => contradiction
  | @running jobs jobs' _ hgo hjobs hjobsRun =>
    have hinj := spine_injective p.document
    have hpage : (p.withPage w).graph.Spine p.document.scopeId (max count 2) := hw.grow hinj hcount
    have hrebuilt : (p.rebuild (p.withPage w)).2.graph.Spine p.document.scopeId
        (2 + (Document.scan p.text none).length) :=
      spine_chain (hpage.trim hinj (k := 1) (by omega)) hinj
    obtain ⟨hspine, htask⟩ := spine_of_interleaves hrebuilt hjobsRun
    have hlength : outputs.length = jobs'.length := length_outputs rfl houtputs
    have hcontext := map_context_of_task htask
    obtain rfl := PreviewStage.running.inj hjobs
    have hfound : jobs'.length = (Document.scan p.text none).length := by
      have hlengths := congrArg List.length hcontext
      rwa [List.length_map, List.length_map, length_chain] at hlengths
    refine ⟨?_, hlength.trans hfound, rfl, jobs', rfl, hlength.symm, ?_⟩
    · rwa [hlength, hfound, Nat.add_comm]
    · intro i j hj
      have hj' := congrArg (·[i]?) hcontext
      simp only [List.getElem?_map, getElem?_chain, hj, Option.map_some, Option.map_map] at hj'
      obtain ⟨f, -, hf⟩ := Option.map_eq_some_iff.1 hj'.symm
      rw [← hf]
      refine ⟨readScope_eq_spine _ i, ?_⟩
      exact congrArg (fragmentScopeId p.document.scopeId) (Nat.zero_add i)

end Preview

/-! ### All passes over one document -/

/-- An editor, and the scopes that are there, after some passes over one document that began with the
root alone. Between passes scopes may be bound, emptied, blocked and listened to in any way. -/
inductive DocumentRun (newKey : KeySource) (e : Evaluator V) (document : DocumentKey) :
    Editor → ScopeGraph V → Prop
  | fresh (s : Editor) : DocumentRun newKey e document s .new
  | pass {s : Editor} {g : ScopeGraph V} (view : EditorView) : view.IsOf document →
      DocumentRun newKey e document s g →
      DocumentRun newKey e document (s.process newKey g view).2.1 (s.process newKey g view).2.2
  | preview {s : Editor} {p q : Preview V} {w w' : World V}
      {outputs : List (FragmentKind × FragmentOutput V)} : p.document = document → p.stage = .start →
      Preview.Interleaves e (p, w) (q, w') → q.outputs? = some outputs →
      DocumentRun newKey e document s w.graph → DocumentRun newKey e document s w'.graph
  | operate {s : Editor} {g : ScopeGraph V} (op : Operation V) : op.KeepsLinks →
      DocumentRun newKey e document s g → DocumentRun newKey e document s (op.apply g)

/-- A name that one scope binds and no other. -/
def ScopeGraph.OnlyIn (g : ScopeGraph V) (id name : String) : Prop :=
  ∀ n, (g.bindings n).has name = true ↔ n = id

/-- The scopes of a document are those of its fragments in a chain. From then on, a name that is bound for
one fragment only is seen by those behind it and by no other. -/
structure ScopeGraph.Wired (g : ScopeGraph V) (page : String) (count : Nat) : Prop where
  spine : g.Spine page (count + 2)
  sight : ∀ (ops : List (Operation V)) (name : String) (i j : Nat), (∀ op ∈ ops, op.KeepsLinks) →
    i < count → j < count → (Operation.run ops g).OnlyIn (fragmentScopeId page i) name →
      ((Operation.run ops g).has (LiveNotes.spine page (j + 1)) name = true ↔ i < j)

variable {newKey : KeySource} {document : DocumentKey} {s : Editor} {g : ScopeGraph V} {count : Nat}

theorem wired_of_spine (h : g.Spine document.scopeId (count + 2)) :
    g.Wired document.scopeId count where
  spine := h
  sight ops name i j hops hi hj honly := by
    have hinj := spine_injective document
    rw [(h.run hops).has_iff hinj (by omega)]
    constructor
    · rintro ⟨k, hk, hbound⟩
      have hend : k = i + 2 := hinj ((honly _).1 hbound)
      omega
    · intro hij
      exact ⟨i + 2, by omega, (honly _).2 rfl⟩

/-- At all times the scopes are the first ones of the document. -/
theorem exists_spine_of_run (h : DocumentRun newKey e document s g) :
    ∃ count, 0 < count ∧ g.Spine document.scopeId count := by
  induction h with
  | fresh s => exact ⟨1, Nat.one_pos, spine_new _⟩
  | pass view hview _ ih =>
    obtain ⟨count, hcount, hspine⟩ := ih
    exact Editor.exists_spine_process hview hspine hcount
  | preview hdocument hstage hrun houtputs _ ih =>
    obtain ⟨count, hcount, hspine⟩ := ih
    subst hdocument
    exact ⟨_, Nat.succ_pos _, (Preview.spine_of_outputs hspine hcount hstage hrun houtputs).1⟩
  | operate op hop _ ih =>
    obtain ⟨count, hcount, hspine⟩ := ih
    exact ⟨count, hcount, hspine.apply hop⟩

/-- What a pass of an editor does to the scopes of a document: those of its fragments are wired, each
instruction names the scopes of its place, and scopes are emptied for fresh keys and for no other. -/
structure EditorPass.Wires (pass : EditorPass) (g g' : ScopeGraph V) (page : String) : Prop where
  scopes : g'.Wired page pass.fragments.length
  places : ∀ i ∈ pass.instructions, i.index < pass.fragments.length ∧
    i.read = spine page (i.index + 1) ∧ i.write = spine page (i.index + 2)
  bindings : ∀ i d, pass.decisions[i]? = some d → g'.bindings (fragmentScopeId page i) =
    if d.fresh then [] else g.bindings (fragmentScopeId page i)

/-- What a reading view does to the scopes of a document. -/
structure Preview.Wires (p : Preview V) (g' : ScopeGraph V) (count : Nat) : Prop where
  scopes : g'.Wired p.document.scopeId count
  places : ∃ jobs, p.stage = .running jobs ∧ jobs.length = count ∧
    ∀ i j, jobs[i]? = some j → j.context.read = spine p.document.scopeId (i + 1) ∧
      j.context.write = spine p.document.scopeId (i + 2)

/-- Whatever came before, every pass that finds fragments wires the scopes for these. -/
theorem wires_of_run (h : DocumentRun newKey e document s g) :
    (∀ view : EditorView, view.IsOf document → (s.process newKey g view).1.fragments ≠ [] →
      (s.process newKey g view).1.Wires g (s.process newKey g view).2.2 document.scopeId) ∧
    ∀ (p q : Preview V) (w w' : World V) (outputs : List (FragmentKind × FragmentOutput V)),
      w.graph = g → p.document = document → p.stage = .start → Preview.Interleaves e (p, w) (q, w') →
        q.outputs? = some outputs →
          outputs.length = (Document.scan p.text none).length ∧ q.Wires w'.graph outputs.length := by
  obtain ⟨count, hcount, hspine⟩ := exists_spine_of_run h
  refine ⟨fun view hview hfragments => ?_, ?_⟩
  · have hfound := (Editor.process_eq newKey s g view).1
    refine ⟨?_, ?_, fun i d hd => Editor.bindings_process hview hspine hcount hd⟩
    · rw [hfound] at hfragments ⊢
      exact wired_of_spine (Editor.spine_process hview hspine hcount hfragments)
    · intro i hi
      obtain ⟨path, f, d, hfile, hf, -, -, heq⟩ := Editor.mem_instructions hi
      obtain rfl := hview path hfile
      rw [hfound]
      refine ⟨(List.getElem?_eq_some_iff.1 hf).1, ?_, ?_⟩
      · rw [heq]
        rfl
      · rw [heq]
        rfl
  · rintro p q w w' outputs rfl rfl hstage hrun houtputs
    obtain ⟨hafter, hfound, hdocument, hplaces⟩ :=
      Preview.spine_of_outputs hspine hcount hstage hrun houtputs
    rw [← hdocument] at hafter hplaces
    exact ⟨hfound, wired_of_spine hafter, hplaces⟩

/-- A document that was read as a whole, with a name bound for one of its fragments since. -/
def sampleBound : ScopeGraph String :=
  (Operation.setMany "page/a.md/1" [("x", "1")]).apply Preview.sampleEnd.2.graph

def sampleView : EditorView := { file := some "a.md", text := Preview.sample.text }

theorem wires_of_run_sample :
    DocumentRun toString Preview.letterEvaluator Preview.sample.document {} sampleBound ∧
      sampleView.IsOf Preview.sample.document ∧ sampleView.found.length = 3 ∧
      (({} : Editor).process toString sampleBound sampleView).1.Wires sampleBound
        (({} : Editor).process toString sampleBound sampleView).2.2 Preview.sample.document.scopeId ∧
      ({ Preview.sample with stage := .running Preview.sampleEnd.1 } : Preview String).Wires
        Preview.sampleEnd.2.graph 3 := by
  have hfresh : DocumentRun toString Preview.letterEvaluator Preview.sample.document {}
      Preview.sampleWorld.graph := .fresh {}
  have hrun : DocumentRun toString Preview.letterEvaluator Preview.sample.document {} sampleBound :=
    .operate _ trivial (.preview rfl rfl Preview.interleaves_sample Preview.outputs?_sample hfresh)
  have hview : sampleView.IsOf Preview.sample.document := by
    rintro path hpath
    exact congrArg DocumentKey.file (Option.some.inj hpath)
  have hfound : sampleView.found.length = 3 := by decide +kernel
  refine ⟨hrun, hview, hfound, (wires_of_run hrun).1 sampleView hview ?_,
    ((wires_of_run hfresh).2 _ _ _ _ _ rfl rfl rfl Preview.interleaves_sample
      Preview.outputs?_sample).2⟩
  rw [(Editor.process_eq _ _ _ _).1]
  exact List.ne_nil_of_length_pos (by rw [hfound]; exact Nat.succ_pos 2)

end LiveNotes
