import LiveNotes.Proofs.Document.Scopes
import LiveNotes.Proofs.Vault.Path

/-! The scopes of a document, by their ids. All that is done in passes over a document is done to these, and
to the root only when the page is put there. An id tells its document as long as no page has the id of a
fragment of another document; nothing in the ids keeps keys from that. -/

namespace LiveNotes

open ScopeGraph Relation

variable {V : Type}

/-- The scopes of a document are that of its page and those of its fragments. -/
def DocumentKey.Owns (d : DocumentKey) (id : String) : Prop :=
  id = d.scopeId ∨ ∃ i, id = fragmentScopeId d.scopeId i

/-- The page of another document has the id of a fragment. -/
def DocumentKey.Clashes (d other : DocumentKey) : Prop := ∃ i, other.scopeId = fragmentScopeId d.scopeId i

/-- The jobs of a reading view write to scopes of its document. -/
def Preview.Own (p : Preview V) : Prop :=
  ∀ jobs, p.stage = .running jobs → ∀ j ∈ jobs, p.document.Owns j.context.write

/-- What goes on with a document: its editor makes a pass, a reading view of it goes on, or so does the
evaluation of one of its fragments. -/
inductive DocumentKey.Step (newKey : KeySource) (e : Evaluator V) (d : DocumentKey) :
    ScopeGraph V → ScopeGraph V → Prop
  | editor (s : Editor) (g : ScopeGraph V) (view : EditorView) : view.IsOf d →
      Step newKey e d g (s.process newKey g view).2.2
  | preview {a b : Preview V × World V} : a.1.document = d → a.1.Own → Preview.Moves e a b →
      Step newKey e d a.2.graph b.2.graph
  | evaluate {j j' : Job V} {w w' : World V} : d.Owns j.context.write → j.Advances e w j' w' →
      Step newKey e d w.graph w'.graph

/-- Passes over a document, whole ones or parts of them. -/
def DocumentKey.Passes (newKey : KeySource) (e : Evaluator V) (d : DocumentKey) :
    ScopeGraph V → ScopeGraph V → Prop := ReflTransGen (d.Step newKey e)

/-- An operation touches scopes of one document alone, and the root only to put its page there. -/
def ScopeGraph.Operation.Within (d : DocumentKey) : Operation V → Prop
  | .child p c => p = rootScopeId ∧ c = d.scopeId ∨ d.Owns p ∧ d.Owns c
  | op => d.Owns op.handle

/-- Operations within a document make one graph of the other. -/
def DocumentKey.Leads (d : DocumentKey) (g g' : ScopeGraph V) : Prop :=
  ∃ ops : List (Operation V), (∀ op ∈ ops, op.Within d) ∧ g' = Operation.run ops g

/-! ### Ids -/

/-- What stands behind the last slash of the id of a fragment is its number. -/
theorem eq_of_fragmentScopeId_eq {page page' : String} {i j : Nat}
    (h : fragmentScopeId page i = fragmentScopeId page' j) : page = page' := by
  have hchars := congrArg String.toList h
  simp only [fragmentScopeId, String.toList_append, List.append_assoc] at hchars
  have hpages := Text.eq_of_append_slash (not_mem_toString_slash i) (not_mem_toString_slash j) hchars
  exact String.toList_injective hpages

namespace DocumentKey

variable {d P Q : DocumentKey} {n : String}

theorem scopeId_injective : Function.Injective DocumentKey.scopeId := by
  have hapart : ∀ path key, pageScopeId path ≠ anonymousScopeId key := by
    intro path key h
    have hfirst := congrArg (·.toList.head?) h
    simp [pageScopeId, anonymousScopeId, String.toList_append] at hfirst
  intro P Q h
  cases P with
  | file path =>
    cases Q with
    | file path' => exact congrArg DocumentKey.file (append_injective "page/" h)
    | anonymous key => exact absurd h (hapart path key)
  | anonymous key =>
    cases Q with
    | file path => exact absurd h.symm (hapart path key)
    | anonymous key' => exact congrArg DocumentKey.anonymous (append_injective "anon-doc/" h)

theorem Owns.page (d : DocumentKey) : d.Owns d.scopeId := Or.inl rfl

theorem Owns.fragment (d : DocumentKey) (i : Nat) : d.Owns (fragmentScopeId d.scopeId i) := Or.inr ⟨i, rfl⟩

theorem Owns.exists_spine (h : d.Owns n) : ∃ k, n = spine d.scopeId (k + 1) := by
  rcases h with rfl | ⟨i, rfl⟩
  · exact ⟨0, rfl⟩
  · exact ⟨i + 1, rfl⟩

theorem Owns.ne_root (h : d.Owns n) : n ≠ rootScopeId := by
  obtain ⟨k, rfl⟩ := h.exists_spine
  intro hroot
  exact absurd (spine_injective d hroot) (Nat.succ_ne_zero k)

/-- Without a clash every id belongs to one document at most. -/
theorem eq_of_owns (hPQ : ¬ P.Clashes Q) (hQP : ¬ Q.Clashes P) (hP : P.Owns n) (hQ : Q.Owns n) : P = Q := by
  rcases hP with rfl | ⟨i, rfl⟩
  · rcases hQ with hpage | ⟨j, hfragment⟩
    · exact scopeId_injective hpage
    · exact absurd ⟨j, hfragment⟩ hQP
  · rcases hQ with hpage | ⟨j, hfragment⟩
    · exact absurd ⟨i, hpage.symm⟩ hPQ
    · exact scopeId_injective (eq_of_fragmentScopeId_eq hfragment)

end DocumentKey

/-! ### Jobs of a document -/

namespace Preview

variable {e : Evaluator V} {p : Preview V} {a b : Preview V × World V}

theorem own_of_start (h : p.stage = .start) : p.Own := by
  intro jobs hjobs
  rw [h] at hjobs
  contradiction

theorem own_enter (p : Preview V) (wait : ScopeWait) (w : World V) : (p.enter wait w).1.Own := by
  unfold enter
  split
  · intro jobs hjobs j hj
    obtain rfl := PreviewStage.running.inj hjobs
    obtain ⟨i, hi⟩ := List.mem_iff_getElem?.1 hj
    rw [getElem?_chain, Option.map_eq_some_iff] at hi
    obtain ⟨f, -, rfl⟩ := hi
    exact DocumentKey.Owns.fragment p.document (0 + i)
  · intro jobs hjobs
    contradiction

theorem document_enter (p : Preview V) (wait : ScopeWait) (w : World V) :
    (p.enter wait w).1.document = p.document := by
  unfold enter
  split
  · rfl
  · rfl

theorem Own.move (h : a.1.Own) (hmove : Moves e a b) : b.1.Own ∧ b.1.document = a.1.document := by
  cases hmove with
  | start _ => exact ⟨own_enter _ _ _, document_enter _ _ _⟩
  | wait _ => exact ⟨own_enter _ _ _, document_enter _ _ _⟩
  | job hstage hjob =>
    refine ⟨?_, rfl⟩
    intro jobs hjobs k hk
    obtain rfl := PreviewStage.running.inj hjobs
    cases hjob with
    | @advance before after j j' _ _ hadvances _ =>
      have hbefore := h _ hstage
      rcases List.mem_append.1 hk with hk | hk
      · exact hbefore k (List.mem_append_left _ hk)
      · rcases List.mem_cons.1 hk with rfl | hk
        -- The job that went on has the scopes that it had.
        · have htask := congrArg Job.context hadvances.task
          have hcontext : k.context = j.context := htask
          rw [hcontext]
          exact hbefore j (List.mem_append_right _ List.mem_cons_self)
        · exact hbefore k (List.mem_append_right _ (List.mem_cons_of_mem _ hk))

/-- A reading view is a pass over its document, as far as it has come. -/
theorem passes_of_interleaves (newKey : KeySource) (hp : a.1.stage = .start) (h : Interleaves e a b) :
    a.1.document.Passes newKey e a.2.graph b.2.graph := by
  have hpasses : a.1.document.Passes newKey e a.2.graph b.2.graph ∧ b.1.Own ∧ b.1.document = a.1.document := by
    induction h with
    | refl => exact ⟨ReflTransGen.refl, own_of_start hp, rfl⟩
    | tail _ hmove ih =>
      obtain ⟨hbefore, hown, hdocument⟩ := ih
      obtain ⟨hnext, hsame⟩ := hown.move hmove
      exact ⟨hbefore.tail (.preview hdocument hown hmove), hnext, hsame.trans hdocument⟩
  exact hpasses.1

end Preview

/-- The instructions of an editor name scopes of its document to write to. -/
theorem Editor.owns_write {newKey : KeySource} {s : Editor} {g : ScopeGraph V} {view : EditorView}
    {d : DocumentKey} {i : RenderInstruction} (hview : view.IsOf d)
    (hi : i ∈ (s.process newKey g view).1.instructions) : d.Owns i.write := by
  obtain ⟨path, f, decision, hfile, -, -, -, heq⟩ := Editor.mem_instructions hi
  obtain rfl := hview path hfile
  rw [heq]
  exact DocumentKey.Owns.fragment (.file path) i.index

/-! ### Passes as operations -/

namespace DocumentKey.Leads

variable {d : DocumentKey} {g g' g'' : ScopeGraph V}

theorem refl (d : DocumentKey) (g : ScopeGraph V) : d.Leads g g :=
  ⟨[], fun _ hop => absurd hop List.not_mem_nil, rfl⟩

theorem one {op : Operation V} (hop : op.Within d) (g : ScopeGraph V) : d.Leads g (op.apply g) :=
  ⟨[op], fun _ hmem => List.mem_singleton.1 hmem ▸ hop, rfl⟩

theorem trans (h : d.Leads g g') (h' : d.Leads g' g'') : d.Leads g g'' := by
  obtain ⟨ops, hops, rfl⟩ := h
  obtain ⟨more, hmore, rfl⟩ := h'
  refine ⟨ops ++ more, ?_, ?_⟩
  · intro op hop
    rcases List.mem_append.1 hop with hop | hop
    · exact hops op hop
    · exact hmore op hop
  · unfold Operation.run
    rw [List.foldl_append]

theorem page (d : DocumentKey) (g : ScopeGraph V) : d.Leads g (g.child rootScopeId d.scopeId) := by
  have hop : (Operation.child rootScopeId d.scopeId : Operation V).Within d := Or.inl ⟨rfl, rfl⟩
  exact one hop g

theorem fragment {read : String} (hread : d.Owns read) (i : Nat) (g : ScopeGraph V) :
    d.Leads g (g.child read (fragmentScopeId d.scopeId i)) := by
  have hop : (Operation.child read (fragmentScopeId d.scopeId i) : Operation V).Within d :=
    Or.inr ⟨hread, Owns.fragment d i⟩
  exact one hop g

theorem dispose (d : DocumentKey) (i : Nat) (g : ScopeGraph V) :
    d.Leads g (g.dispose (fragmentScopeId d.scopeId i)) := by
  have hop : (Operation.dispose (fragmentScopeId d.scopeId i) : Operation V).Within d := Owns.fragment d i
  exact one hop g

theorem wire {read : String} (hread : d.Owns read) (size index : Nat) (pairs : List (Fragment × KeyDecision))
    (g : ScopeGraph V) : d.Leads g (Editor.wire d.scopeId size index read pairs g).2 := by
  induction pairs generalizing index read g with
  | nil => exact refl d g
  | cons p rest ih =>
    have hwrite := Owns.fragment d index
    have hlink : d.Leads g (Editor.link g read (fragmentScopeId d.scopeId index) p.2) := by
      unfold Editor.link
      split
      · have hreset : (Operation.reset (fragmentScopeId d.scopeId index) : Operation V).Within d := hwrite
        exact (fragment hread index g).trans (one hreset _)
      · exact fragment hread index g
    exact hlink.trans (ih hwrite (index + 1) _)

theorem chain {read : String} (hread : d.Owns read) (index : Nat) (fs : List Fragment) (g : ScopeGraph V) :
    d.Leads g (Preview.chain d.scopeId index read fs g).2 := by
  induction fs generalizing index read g with
  | nil => exact refl d g
  | cons f fs ih =>
    have hlink : d.Leads g ((g.dispose (fragmentScopeId d.scopeId index)).child read
        (fragmentScopeId d.scopeId index)) := (dispose d index g).trans (fragment hread index _)
    exact hlink.trans (ih (Owns.fragment d index) (index + 1) _)

theorem process {newKey : KeySource} {view : EditorView} (hview : view.IsOf d) (s : Editor)
    (g : ScopeGraph V) : d.Leads g (s.process newKey g view).2.2 := by
  by_cases hfound : view.found = []
  · obtain ⟨-, -, hsame | ⟨path, hfile, hcut⟩⟩ := Editor.process_of_empty newKey s g hfound
    · rw [hsame]
      exact refl d g
    · obtain rfl := hview path hfile
      rw [hcut]
      exact dispose (.file path) 0 g
  · obtain ⟨path, hfile, heq⟩ := Editor.process_of_found newKey s g hfound
    obtain rfl := hview path hfile
    rw [heq]
    have hwired : (DocumentKey.file path).Leads g (s.wired newKey g view path).2 :=
      (page _ g).trans (wire (Owns.page _) _ 0 _ _)
    exact hwired.trans (dispose (.file path) view.found.length _)

theorem enter (p : Preview V) (wait : ScopeWait) (w : World V) :
    p.document.Leads w.graph (p.enter wait w).2.graph := by
  unfold Preview.enter
  split
  · have hemptied : (Operation.disposeDescendants p.document.scopeId : Operation V).Within p.document :=
      Owns.page p.document
    exact (one hemptied w.graph).trans (chain (Owns.page _) 0 _ _)
  · exact refl _ _

theorem advances {e : Evaluator V} {j j' : Job V} {w w' : World V} (hown : d.Owns j.context.write)
    (h : j.Advances e w j' w') : d.Leads w.graph w'.graph := by
  cases h with
  | step hstep =>
    obtain ⟨ops, hops, hgraph⟩ := exists_operations_of_step hstep
    refine ⟨ops, ?_, hgraph⟩
    intro op hop
    obtain ⟨hkeeps, hhandle⟩ := hops op hop
    have hwrite : d.Owns op.handle := by rwa [hhandle]
    cases op with
    | child p c => contradiction
    | _ => exact hwrite
  | climb _ => exact refl d _

theorem moves {e : Evaluator V} {a b : Preview V × World V} (hown : a.1.Own) (h : Preview.Moves e a b) :
    a.1.document.Leads a.2.graph b.2.graph := by
  cases h with
  | @start p w _ => exact (page p.document w.graph).trans (enter p _ _)
  | wait _ => exact enter _ _ _
  | job hstage hmove =>
    cases hmove with
    | advance hadvances _ => exact advances (hown _ hstage _ (by simp)) hadvances

theorem step {newKey : KeySource} {e : Evaluator V} (h : d.Step newKey e g g') : d.Leads g g' := by
  cases h with
  | editor s g view hview => exact process hview s g
  | preview hdocument hown hmove => exact hdocument ▸ moves hown hmove
  | evaluate hown hadvances => exact advances hown hadvances

theorem passes {newKey : KeySource} {e : Evaluator V} (h : d.Passes newKey e g g') : d.Leads g g' := by
  induction h with
  | refl => exact refl d g
  | tail _ hstep ih => exact ih.trans (step hstep)

end DocumentKey.Leads

end LiveNotes
