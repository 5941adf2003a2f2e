import LiveNotes.Proofs.Document.Pass

/-! A pass that an editor makes twice in a row. What the first one remembers is what the second one finds, so no
key is drawn and no scope is emptied; and the scopes already stand where the second one would put them. -/

namespace LiveNotes

open ScopeGraph Relation

/-! ### Keys -/

namespace Plan

variable {newKey : KeySource} {d : Demand} {f : Fragment}

/-- A fragment that is as it was remembered keeps its key, unless keys before it are renewed. -/
theorem decide_remembered (hd : d.renew = false) (key : String) (f : Fragment) :
    decide d (some ⟨f.kind, f.content, key, f.cursorInside⟩) f =
      (some key, { d with keep := d.keep || f.cursorInside }) := by
  unfold decide
  simp [hd]

/-- The decisions of a plan in which all keys are kept. -/
def keepAll (ds : List KeyDecision) : List KeyDecision := ds.map fun d => { d with fresh := false }

theorem walk_remembered (hd : d.renew = false) (drawn n : Nat) (e : Demand) (before : List CacheEntry)
    (fs : List Fragment) :
    walk newKey n d ((walk newKey drawn e before fs).1.map (·.1)) fs =
      ((walk newKey drawn e before fs).1.map fun p => (p.1, { p.2 with fresh := false }), n) := by
  induction fs generalizing drawn d e before with
  | nil => rfl
  | cons f fs ih =>
    simp only [walk, List.map_cons, List.head?_cons, List.tail_cons, decide_remembered hd, Option.getD_some,
      Option.isNone_some, Bool.false_eq_true, if_false]
    rw [ih (by exact hd)]

/-- Fragments that are planned again, as they are, keep all their keys. -/
theorem planPass_planPass (newKey : KeySource) (drawn : Nat) (previous : List CacheEntry) (fs : List Fragment) :
    planPass newKey (planPass newKey drawn previous fs).drawn (planPass newKey drawn previous fs).cache fs =
      { planPass newKey drawn previous fs with
        decisions := keepAll (planPass newKey drawn previous fs).decisions } := by
  simp only [planPass, walk_remembered, keepAll, List.map_map]
  rfl

end Plan

/-! ### Scopes -/

namespace ScopeGraph

variable {V : Type} {g : ScopeGraph V} {page : String} {m k : Nat}

/-- Of the scopes of a document down to some place, each is below the one before, if that is there. -/
def Strung (g : ScopeGraph V) (page : String) (m : Nat) : Prop :=
  ∀ i < m, g.isLive (spine page i) = true → g.parent? (spine page (i + 1)) = some (spine page i)

namespace Strung

theorem mono (h : g.Strung page m) (hk : k ≤ m) : g.Strung page k :=
  fun i hi => h i (Nat.lt_of_lt_of_le hi hk)

theorem zero (g : ScopeGraph V) (page : String) : g.Strung page 0 := fun _ hi => absurd hi (Nat.not_lt_zero _)

/-- The next scope of a strung document is where it is put. -/
theorem child_eq (h : g.Strung page m) (hk : k < m) : g.child (spine page k) (spine page (k + 1)) = g := by
  cases hlive : g.isLive (spine page k) with
  | false => exact child_of_nothing (Or.inr hlive)
  | true =>
    obtain ⟨s, hs, hparent⟩ := Option.bind_eq_some_iff.1 (h k hk hlive)
    exact child_of_child hs hparent

theorem apply (h : g.Strung page m) {op : Operation V} (hop : op.KeepsLinks) : (op.apply g).Strung page m := by
  intro i hi hlive
  rw [isLive_apply hop] at hlive
  rw [parent?_apply hop]
  exact h i hi hlive

theorem child (h : g.Strung page m) (hinj : Function.Injective (spine page)) :
    (g.child (spine page m) (spine page (m + 1))).Strung page (m + 1) := by
  have hne : spine page (m + 1) ≠ spine page m := fun heq => by simpa using hinj heq
  intro i hi hlive
  -- No scope but the last one is made, so one that is there was there before.
  have hbefore : g.isLive (spine page i) = true := by
    rcases (isLive_child g _ _ _).1 hlive with hbefore | ⟨hlast, -⟩
    · exact hbefore
    · exact absurd (hinj hlast) (Nat.ne_of_lt hi)
  rw [parent?_child]
  rcases Nat.lt_or_eq_of_le (Nat.le_of_lt_succ hi) with hlt | rfl
  · rw [if_neg fun hand => Nat.ne_of_lt (Nat.succ_lt_succ hlt) (hinj hand.1)]
    exact h i hlt hbefore
  · rw [if_pos ⟨rfl, hne, hbefore⟩]

/-- What is removed behind the end takes no scope from its place. -/
theorem dispose (h : g.Strung page m) (hlinked : g.Linked) (hinj : Function.Injective (spine page)) (hk : m < k) :
    (g.dispose (spine page k)).Strung page m := by
  intro i hi hlive
  obtain ⟨hbefore, hclear⟩ := hlinked.isLive_dispose.1 hlive
  have hparent := h i hi hbefore
  have hnext : ¬ g.Below (spine page k) (spine page (i + 1)) := by
    intro hbelow
    rcases ReflTransGen.cases_tail hbelow with heq | ⟨b, hb, hlast⟩
    · have hend := hinj heq
      omega
    · obtain rfl : b = spine page i := Option.some.inj ((hlinked.mem_children_iff.1 hlast).symm.trans hparent)
      exact hclear hb
  have hsame := hlinked.scope?_dispose_of_not_below hnext
  rw [← hparent]
  unfold parent?
  rw [hsame]
  split
  · cases g.scope? (spine page (i + 1)) with
    | none => rfl
    | some s => rfl
  · rfl

end Strung

end ScopeGraph

/-! ### A pass -/

/-- A pass with all keys kept. -/
def EditorPass.kept (pass : EditorPass) : EditorPass :=
  { pass with
    decisions := Plan.keepAll pass.decisions
    instructions := pass.instructions.map fun i => { i with reused := true } }

namespace Editor

variable {V : Type} {newKey : KeySource} {s : Editor} {g : ScopeGraph V} {view : EditorView} {page path : String}
  {size index m : Nat} {pairs : List (Fragment × KeyDecision)}

theorem linked_link (h : g.Linked) (read write : String) (d : KeyDecision) : (link g read write d).Linked := by
  unfold link
  split
  · exact (h.child read write).apply (.reset write)
  · exact h.child read write

theorem linked_wire (h : g.Linked) (page : String) (size index : Nat) (read : String)
    (pairs : List (Fragment × KeyDecision)) : (wire page size index read pairs g).2.Linked := by
  induction pairs generalizing index read g with
  | nil => exact h
  | cons p rest ih => exact ih (linked_link h read _ p.2) (index + 1) _

theorem linked_process (h : g.Linked) (newKey : KeySource) (s : Editor) (view : EditorView) :
    (s.process newKey g view).2.2.Linked := by
  by_cases hfound : view.found = []
  · obtain ⟨-, -, hsame | ⟨path, -, hcut⟩⟩ := process_of_empty newKey s g hfound
    · rw [hsame]
      exact h
    · rw [hcut]
      exact h.dispose _
  · obtain ⟨path, -, heq⟩ := process_of_found newKey s g hfound
    rw [heq]
    exact (linked_wire (h.child _ _) _ _ _ _ _).dispose _

theorem strung_wire (h : g.Strung page (index + 1)) (hinj : Function.Injective (spine page)) :
    (wire page size index (spine page (index + 1)) pairs g).2.Strung page (index + 1 + pairs.length) := by
  induction pairs generalizing index g with
  | nil => exact h
  | cons p rest ih =>
    have hlink : (link g (spine page (index + 1)) (spine page (index + 2)) p.2).Strung page (index + 2) := by
      unfold link
      split
      · have hkeeps : (Operation.reset (spine page (index + 2)) : Operation V).KeepsLinks := trivial
        exact (h.child hinj).apply hkeeps
      · exact h.child hinj
    have hlength : index + 1 + (p :: rest).length = index + 1 + 1 + rest.length := by
      rw [List.length_cons]
      omega
    rw [hlength]
    exact ih hlink

/-- Scopes that are strung are left as they are when no key is fresh. -/
theorem graph_wire_of_strung (h : g.Strung page (index + 1 + pairs.length)) (hkept : ∀ p ∈ pairs, p.2.fresh = false) :
    (wire page size index (spine page (index + 1)) pairs g).2 = g := by
  induction pairs generalizing index with
  | nil => rfl
  | cons p rest ih =>
    obtain ⟨hfirst, hrest⟩ := List.forall_mem_cons.1 hkept
    rw [List.length_cons] at h
    have hlink : link g (spine page (index + 1)) (spine page (index + 2)) p.2 = g := by
      rw [link, if_neg (Bool.not_eq_true _ ▸ hfirst)]
      exact h.child_eq (by omega)
    rw [wire_cons, hlink]
    exact ih (h.mono (by omega)) hrest

theorem instructions_kept (page : String) (size index : Nat) (fs : List Fragment) (ds : List KeyDecision)
    (g g' : ScopeGraph V) :
    (wire page size index (spine page (index + 1)) (fs.zip (Plan.keepAll ds)) g').1 =
      (wire page size index (spine page (index + 1)) (fs.zip ds) g).1.map fun i => { i with reused := true } := by
  induction fs generalizing index ds g g' with
  | nil => rfl
  | cons f fs ih =>
    cases ds with
    | nil => rfl
    | cons d ds =>
      have hnext := fun g g' => ih (index + 1) ds g g'
      rw [Plan.keepAll, List.map_cons, List.zip_cons_cons, List.zip_cons_cons, wire_cons, wire_cons]
      dsimp only
      rw [← Plan.keepAll, hnext (link g (spine page (index + 1)) (spine page (index + 2)) d)]
      split
      · rfl
      · rfl

/-! ### Two passes -/

theorem strung_process (h : g.Linked) (newKey : KeySource) (s : Editor) (view : EditorView) (path : String) :
    (disposeFrom (s.wired newKey g view path).2 (pageScopeId path) view.found.length).Strung (pageScopeId path)
      (view.found.length + 1) := by
  have hinj := spine_injective (.file path)
  have hpage : (g.child rootScopeId (pageScopeId path)).Strung (pageScopeId path) 1 := (Strung.zero g _).child hinj
  have hwired : (s.wired newKey g view path).2.Strung (pageScopeId path)
      (0 + 1 + (view.found.zip (s.plan newKey view).decisions).length) := strung_wire hpage hinj
  rw [List.length_zip, length_decisions, Nat.min_self, Nat.add_comm] at hwired
  have hlinked : (s.wired newKey g view path).2.Linked := linked_wire (h.child _ _) _ _ _ _ _
  exact hwired.dispose hlinked hinj (k := view.found.length + 2) (Nat.lt_succ_self _)

theorem disposeFrom_disposeFrom (g : ScopeGraph V) (page : String) (index : Nat) :
    disposeFrom (disposeFrom g page index) page index = disposeFrom g page index :=
  dispose_of_none (scope?_dispose_self g _)

theorem cleared_cleared (g : ScopeGraph V) (view : EditorView) : cleared (cleared g view) view = cleared g view := by
  unfold cleared
  cases view.file with
  | none => rfl
  | some path =>
    cases view.livePreview with
    | false => rfl
    | true => exact disposeFrom_disposeFrom g _ 0

theorem process_again_of_empty (newKey : KeySource) (s : Editor) (g : ScopeGraph V) (h : view.found = []) :
    (s.process newKey g view).2.1.process newKey (s.process newKey g view).2.2 view =
      ((s.process newKey g view).1.kept, (s.process newKey g view).2) := by
  rw [process_of_empty_eq newKey s g h, process_of_empty_eq newKey _ _ h, cleared_cleared]
  rfl

theorem process_again_of_found (hg : g.Linked) (newKey : KeySource) (s : Editor) (h : view.found ≠ []) :
    (s.process newKey g view).2.1.process newKey (s.process newKey g view).2.2 view =
      ((s.process newKey g view).1.kept, (s.process newKey g view).2) := by
  obtain ⟨path, hfile, heq⟩ := process_of_found newKey s g h
  have hstrung := strung_process hg newKey s view path
  rw [heq]
  dsimp only
  generalize hcut : disposeFrom (s.wired newKey g view path).2 (pageScopeId path) view.found.length = cut at hstrung ⊢
  -- What the first pass has remembered is what the second one finds.
  have hplan : plan newKey ⟨(s.plan newKey view).cache, (s.plan newKey view).drawn⟩ view =
      { s.plan newKey view with decisions := Plan.keepAll (s.plan newKey view).decisions } :=
    Plan.planPass_planPass newKey s.drawn s.cache view.found
  obtain ⟨path', hfile', heq'⟩ :=
    process_of_found newKey ⟨(s.plan newKey view).cache, (s.plan newKey view).drawn⟩ cut h
  obtain rfl : path = path' := Option.some.inj (hfile.symm.trans hfile')
  have hpage : cut.child rootScopeId (pageScopeId path) = cut := hstrung.child_eq (k := 0) (Nat.succ_pos _)
  have hgraph : (wire (pageScopeId path) view.text.utf8ByteSize 0 (pageScopeId path)
      (view.found.zip (Plan.keepAll (s.plan newKey view).decisions)) cut).2 = cut := by
    have hlength : 0 + 1 + (view.found.zip (Plan.keepAll (s.plan newKey view).decisions)).length ≤
        view.found.length + 1 := by
      rw [List.length_zip]
      omega
    refine graph_wire_of_strung (hstrung.mono hlength) ?_
    intro p hp
    obtain ⟨d, -, hd⟩ := List.mem_map.1 (List.of_mem_zip hp).2
    rw [← hd]
  have hinstructions : (wire (pageScopeId path) view.text.utf8ByteSize 0 (pageScopeId path)
      (view.found.zip (Plan.keepAll (s.plan newKey view).decisions)) cut).1 =
        (s.wired newKey g view path).1.map fun i => { i with reused := true } :=
    instructions_kept (pageScopeId path) _ 0 _ _ _ _
  have hgone : disposeFrom cut (pageScopeId path) view.found.length = cut := by
    rw [← hcut]
    exact disposeFrom_disposeFrom _ _ _
  rw [heq']
  unfold wired
  rw [hplan]
  dsimp only
  rw [hpage, hgraph, hinstructions, hgone]
  rfl

/-- An editor, and the scopes that are there, after passes over any documents with any changes to the scopes
between them. -/
inductive Reached (newKey : KeySource) : Editor → ScopeGraph V → Prop
  | new : Reached newKey {} .new
  | pass {s : Editor} {g : ScopeGraph V} (view : EditorView) : Reached newKey s g →
      Reached newKey (s.process newKey g view).2.1 (s.process newKey g view).2.2
  | operate {s : Editor} {g : ScopeGraph V} (op : Operation V) : Reached newKey s g →
      Reached newKey s (op.apply g)

theorem Reached.linked (h : Reached newKey s g) : g.Linked := by
  induction h with
  | new => exact linked_new
  | pass view _ ih => exact linked_process ih newKey _ view
  | operate op _ ih => exact ih.apply op

/-- A pass that is made again, over the same view, draws no key and empties no scope. It gives the same
instructions, all of them with their keys kept, and leaves what is remembered and the whole graph as they are. -/
theorem process_process (h : Reached newKey s g) (view : EditorView) :
    (s.process newKey g view).2.1.process newKey (s.process newKey g view).2.2 view =
      ((s.process newKey g view).1.kept, (s.process newKey g view).2) := by
  by_cases hfound : view.found = []
  · exact process_again_of_empty newKey s g hfound
  · exact process_again_of_found h.linked newKey s hfound

def noteView : EditorView :=
  { file := some "a.md", text := "`ldjs: a`\n\n```ldjs\nexport const a = 1;\n```\n\n```ldsh:A\nx\n```\n" }

/-- A name is bound for a block of statements; then the cursor is put into the block. -/
def typing : Editor × ScopeGraph String :=
  let first := ({} : Editor).process toString .new noteView
  let bound := (Operation.setMany "page/a.md/1" [("a", "1")]).apply first.2.2
  (first.2.1.process toString bound { noteView with cursor := some 20 }).2

/-- When the cursor leaves the block, one pass renews the keys from there on, and another one renews none. -/
theorem process_process_typing :
    Reached toString typing.1 typing.2 ∧
      (typing.1.process toString typing.2 noteView).1.decisions.map (·.fresh) = [false, true, true] ∧
      (typing.1.process toString typing.2 noteView).2.1.process toString
          (typing.1.process toString typing.2 noteView).2.2 noteView =
        ((typing.1.process toString typing.2 noteView).1.kept, (typing.1.process toString typing.2 noteView).2) := by
  have hreached : Reached toString typing.1 typing.2 := .pass _ (.operate _ (.pass _ .new))
  exact ⟨hreached, by decide +kernel, process_process hreached noteView⟩

end Editor

end LiveNotes
