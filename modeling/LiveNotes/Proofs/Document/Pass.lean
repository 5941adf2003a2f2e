import LiveNotes.Document.Editor
import LiveNotes.Proofs.Document.Spine

/-! What one pass of an editor does. Its decisions and what it keeps follow from the fragments that it
finds and from what was kept before; its instructions name the scopes of neighbours in the chain; and the
scopes are brought to the length of the document, each with its bindings unless the key is fresh. -/

namespace LiveNotes

open ScopeGraph

/-- The fragments that a pass finds: none without a file or a live preview. -/
def EditorView.found (view : EditorView) : List Fragment :=
  match view.file, view.livePreview with
  | some _, true => Document.scan view.text view.cursor
  | _, _ => []

/-- A view of no other document. -/
def EditorView.IsOf (view : EditorView) (document : DocumentKey) : Prop :=
  ∀ path, view.file = some path → document = .file path

namespace ScopeGraph

variable {V : Type} {g : ScopeGraph V} {page id n : String} {k j m : Nat}

theorem bindings_reset (g : ScopeGraph V) (id n : String) :
    (g.reset id).bindings n = if n = id then [] else g.bindings n := by
  unfold bindings
  rw [scope?_reset]
  split
  · cases g.scope? n with
    | none => rfl
    | some s => rfl
  · rfl

theorem Spine.bindings_cut (h : g.Spine page m) (hinj : Function.Injective (spine page)) (hjk : j < k)
    (hjm : j < m) : (g.dispose (spine page k)).bindings (spine page j) = g.bindings (spine page j) := by
  have hleft : (g.dispose (spine page k)).isLive (spine page j) = true :=
    (h.cut hinj (Nat.zero_lt_of_lt hjk)).isLive (Nat.lt_min.2 ⟨hjm, hjk⟩)
  exact part_dispose unlinked_bindings hleft

end ScopeGraph

namespace Editor

variable {V : Type} {newKey : KeySource} {s : Editor} {g : ScopeGraph V} {view : EditorView}
  {page id : String} {size index k m : Nat} {pairs : List (Fragment × KeyDecision)}
  {i : RenderInstruction}

/-! ### The chain of a pass -/

/-- The graph in which the scope of a fragment stands below the one that it reads from. -/
def link (g : ScopeGraph V) (read write : String) (d : KeyDecision) : ScopeGraph V :=
  if d.fresh then (g.child read write).reset write else g.child read write

theorem wire_cons (page : String) (size index : Nat) (read : String) (f : Fragment) (d : KeyDecision)
    (rest : List (Fragment × KeyDecision)) (g : ScopeGraph V) :
    wire page size index read ((f, d) :: rest) g =
      (if d.skip then
          (wire page size (index + 1) (spine page (index + 2)) rest
            (link g read (spine page (index + 2)) d)).1
        else instruction size index f d read (spine page (index + 2)) ::
          (wire page size (index + 1) (spine page (index + 2)) rest
            (link g read (spine page (index + 2)) d)).1,
        (wire page size (index + 1) (spine page (index + 2)) rest
          (link g read (spine page (index + 2)) d)).2) := rfl

/-- The instructions of a chain are those of its fragments without the cursor, one by one. -/
theorem instructions_wire (page : String) (size index : Nat) (pairs : List (Fragment × KeyDecision))
    (g : ScopeGraph V) : (wire page size index (spine page (index + 1)) pairs g).1 =
      (pairs.zipIdx index).filterMap fun ((f, d), k) =>
        if d.skip then none
        else some (instruction size k f d (spine page (k + 1)) (spine page (k + 2))) := by
  induction pairs generalizing index g with
  | nil => rfl
  | cons p rest ih =>
    rw [wire_cons, ih, List.zipIdx_cons, List.filterMap_cons]
    cases h : p.2.skip with
    | true => simp [h]
    | false => simp [h]

theorem mem_instructions_wire (hi : i ∈ (wire page size 0 page pairs g).1) :
    ∃ f d, pairs[i.index]? = some (f, d) ∧ d.skip = false ∧
      i = instruction size i.index f d (spine page (i.index + 1)) (spine page (i.index + 2)) := by
  have hwire : (wire page size 0 page pairs g).1 = _ := instructions_wire page size 0 pairs g
  rw [hwire, List.mem_filterMap] at hi
  obtain ⟨⟨⟨f, d⟩, k⟩, hk, hi⟩ := hi
  rw [List.mk_mem_zipIdx_iff_getElem?] at hk
  cases hskip : d.skip with
  | true => simp [hskip] at hi
  | false =>
    simp only [hskip, Bool.false_eq_true, if_false, Option.some.injEq] at hi
    subst hi
    exact ⟨f, d, hk, hskip, rfl⟩

section

variable (h : g.Spine page m) (hinj : Function.Injective (spine page)) (hm : index + 1 < m)

include h hinj hm

theorem spine_link (d : KeyDecision) :
    (link g (spine page (index + 1)) (spine page (index + 2)) d).Spine page (max m (index + 3)) := by
  unfold link
  split
  · have hkeeps : (Operation.reset (spine page (index + 2)) : Operation V).KeepsLinks := trivial
    exact (h.grow hinj hm).apply hkeeps
  · exact h.grow hinj hm

theorem spine_wire : (wire page size index (spine page (index + 1)) pairs g).2.Spine page
    (max m (index + 2 + pairs.length)) := by
  induction pairs generalizing index g m with
  | nil =>
    rw [List.length_nil, Nat.max_eq_left (by omega)]
    exact h
  | cons p rest ih =>
    have hlength : max m (index + 2 + (p :: rest).length) =
        max (max m (index + 3)) (index + 1 + 2 + rest.length) := by
      rw [List.length_cons]
      omega
    rw [hlength]
    exact ih (spine_link h hinj hm p.2) (by omega)

end

theorem bindings_link (g : ScopeGraph V) (read write : String) (d : KeyDecision) (id : String) :
    (link g read write d).bindings id = if id = write ∧ d.fresh = true then [] else g.bindings id := by
  unfold link
  split
  · next hfresh =>
    rw [bindings_reset, bindings_child]
    simp [hfresh]
  · next hkept =>
    rw [bindings_child, if_neg fun hand => hkept hand.2]

/-- Of all scopes only those of fragments with a fresh key lose what they bind. -/
theorem bindings_wire (hinj : Function.Injective (spine page)) (k : Nat) :
    (wire page size index (spine page (index + 1)) pairs g).2.bindings (spine page (k + 2)) =
      if index ≤ k ∧ pairs[k - index]?.any (·.2.fresh) = true then []
      else g.bindings (spine page (k + 2)) := by
  induction pairs generalizing index g with
  | nil => simp [wire]
  | cons p rest ih =>
    rw [wire_cons, ih, bindings_link]
    simp only [hinj.eq_iff, Nat.add_right_cancel_iff]
    rcases Nat.lt_trichotomy k index with hlt | rfl | hgt
    · rw [if_neg (by omega), if_neg (by omega), if_neg (by omega)]
    · rw [if_neg (by omega), Nat.sub_self]
      simp
    · obtain ⟨j, rfl⟩ := Nat.exists_eq_add_of_lt hgt
      have hj : index + j + 1 - index = j + 1 := by omega
      have hj' : index + j + 1 - (index + 1) = j := by omega
      rw [hj, hj', List.getElem?_cons_succ]
      have hle : index ≤ index + j + 1 ∧ index + 1 ≤ index + j + 1 ∧ index + j + 1 ≠ index := by omega
      simp [hle]

/-! ### A pass -/

/-- The graph after a pass that finds no fragments. -/
def cleared (g : ScopeGraph V) (view : EditorView) : ScopeGraph V :=
  match view.file, view.livePreview with
  | some path, true => disposeFrom g (pageScopeId path) 0
  | _, _ => g

theorem process_of_empty_eq (newKey : KeySource) (s : Editor) (g : ScopeGraph V) (h : view.found = []) :
    s.process newKey g view = ({}, { s with cache := [] }, cleared g view) := by
  unfold EditorView.found at h
  unfold process
  split
  · next path hfile hlive =>
    have hcleared : cleared g view = disposeFrom g (pageScopeId path) 0 := by
      unfold cleared
      rw [hfile, hlive]
    rw [hfile, hlive] at h
    dsimp only at h
    rw [h, hcleared]
  · next hnot =>
    have hcleared : cleared g view = g := by
      unfold cleared
      split
      · next path hfile hlive => exact absurd hlive (hnot path hfile)
      · rfl
    rw [hcleared]

theorem process_of_empty (newKey : KeySource) (s : Editor) (g : ScopeGraph V) (h : view.found = []) :
    (s.process newKey g view).1 = {} ∧ (s.process newKey g view).2.1 = { s with cache := [] } ∧
      ((s.process newKey g view).2.2 = g ∨
        ∃ path, view.file = some path ∧ (s.process newKey g view).2.2 = disposeFrom g (pageScopeId path) 0) := by
  rw [process_of_empty_eq newKey s g h]
  refine ⟨rfl, rfl, ?_⟩
  unfold cleared
  split
  · next path hfile _ => exact Or.inr ⟨path, hfile, rfl⟩
  · exact Or.inl rfl

/-- The plan of a pass for the fragments that it finds. -/
def plan (newKey : KeySource) (s : Editor) (view : EditorView) : PassPlan :=
  planPass newKey s.drawn s.cache view.found

/-- The chain of a pass over the document at a path, before the scopes behind it are removed. -/
def wired (newKey : KeySource) (s : Editor) (g : ScopeGraph V) (view : EditorView) (path : String) :
    List RenderInstruction × ScopeGraph V :=
  wire (pageScopeId path) view.text.utf8ByteSize 0 (pageScopeId path)
    (view.found.zip (s.plan newKey view).decisions) (g.child rootScopeId (pageScopeId path))

theorem length_decisions (newKey : KeySource) (s : Editor) (view : EditorView) :
    (s.plan newKey view).decisions.length = view.found.length := by
  simp [plan, planPass, Plan.length_walk]

theorem process_of_found (newKey : KeySource) (s : Editor) (g : ScopeGraph V) (h : view.found ≠ []) :
    ∃ path, view.file = some path ∧ s.process newKey g view =
      (⟨view.found, (s.plan newKey view).decisions, (s.wired newKey g view path).1⟩,
        ⟨(s.plan newKey view).cache, (s.plan newKey view).drawn⟩,
        disposeFrom (s.wired newKey g view path).2 (pageScopeId path) view.found.length) := by
  unfold wired plan process
  split
  · next path hfile hlive =>
    have hfound : Document.scan view.text view.cursor = view.found := by
      unfold EditorView.found
      rw [hfile, hlive]
    rw [hfound]
    cases hfs : view.found with
    | nil => exact absurd hfs h
    | cons f fs => exact ⟨path, hfile, rfl⟩
  · next hnot =>
    refine absurd ?_ h
    unfold EditorView.found
    split
    · next path hfile hlive => exact absurd hlive (hnot path hfile)
    · rfl

/-- What a pass says and keeps is the plan for the fragments that it finds. -/
theorem process_eq (newKey : KeySource) (s : Editor) (g : ScopeGraph V) (view : EditorView) :
    (s.process newKey g view).1.fragments = view.found ∧
      (s.process newKey g view).1.decisions = (s.plan newKey view).decisions ∧
      (s.process newKey g view).2.1 = ⟨(s.plan newKey view).cache, (s.plan newKey view).drawn⟩ := by
  by_cases h : view.found = []
  · obtain ⟨hpass, hkept, -⟩ := process_of_empty newKey s g h
    unfold plan
    rw [hpass, hkept, h]
    exact ⟨rfl, rfl, rfl⟩
  · obtain ⟨path, -, heq⟩ := process_of_found newKey s g h
    rw [heq]
    exact ⟨rfl, rfl, rfl⟩

theorem mem_instructions (hi : i ∈ (s.process newKey g view).1.instructions) :
    ∃ path f d, view.file = some path ∧ view.found[i.index]? = some f ∧
      (s.process newKey g view).1.decisions[i.index]? = some d ∧ d.skip = false ∧
      i = instruction view.text.utf8ByteSize i.index f d (spine (pageScopeId path) (i.index + 1))
        (spine (pageScopeId path) (i.index + 2)) := by
  by_cases h : view.found = []
  · rw [(process_of_empty newKey s g h).1] at hi
    contradiction
  · obtain ⟨path, hfile, heq⟩ := process_of_found newKey s g h
    rw [heq] at hi ⊢
    obtain ⟨f, d, hfd, hskip, hi⟩ := mem_instructions_wire hi
    obtain ⟨hf, hd⟩ := List.getElem?_zip_eq_some.1 hfd
    exact ⟨path, f, d, hfile, hf, hd, hskip, hi⟩

/-! ### The scopes after a pass -/

variable {document : DocumentKey} {d : KeyDecision} {path : String}

theorem spine_wired (newKey : KeySource) (s : Editor) (view : EditorView)
    (h : g.Spine (pageScopeId path) m) (hm : 0 < m) :
    (s.wired newKey g view path).2.Spine (pageScopeId path) (max (max m 2) (view.found.length + 2)) := by
  have hinj := spine_injective (.file path)
  have hwired : (s.wired newKey g view path).2.Spine (pageScopeId path)
      (max (max m 2) (0 + 2 + (view.found.zip (s.plan newKey view).decisions).length)) :=
    spine_wire (h.grow hinj hm) hinj (by omega)
  rwa [List.length_zip, length_decisions, Nat.min_self, Nat.add_comm (0 + 2)] at hwired

/-- Whatever was there, a pass leaves as many scopes as it finds fragments. -/
theorem spine_process (hview : view.IsOf document) (h : g.Spine document.scopeId m) (hm : 0 < m)
    (hfound : view.found ≠ []) :
    (s.process newKey g view).2.2.Spine document.scopeId (view.found.length + 2) := by
  obtain ⟨path, hfile, heq⟩ := process_of_found newKey s g hfound
  obtain rfl := hview path hfile
  have hcut := (spine_wired newKey s view h hm).cut (spine_injective (.file path)) (k := view.found.length + 2)
    (Nat.succ_pos _)
  rw [Nat.min_eq_right (by omega)] at hcut
  rw [heq]
  exact hcut

theorem exists_spine_process (hview : view.IsOf document) (h : g.Spine document.scopeId m) (hm : 0 < m) :
    ∃ count, 0 < count ∧ (s.process newKey g view).2.2.Spine document.scopeId count := by
  by_cases hfound : view.found = []
  · obtain ⟨-, -, hsame | ⟨path, hfile, hcut⟩⟩ := process_of_empty newKey s g hfound
    · rw [hsame]
      exact ⟨m, hm, h⟩
    · obtain rfl := hview path hfile
      rw [hcut]
      exact ⟨min m 2, by omega, h.cut (spine_injective (.file path)) (k := 2) Nat.two_pos⟩
  · exact ⟨_, Nat.succ_pos _, spine_process hview h hm hfound⟩

/-- A pass empties the scopes of fragments with a fresh key and keeps what all others bind. -/
theorem bindings_process (hview : view.IsOf document) (h : g.Spine document.scopeId m) (hm : 0 < m)
    (hd : (s.process newKey g view).1.decisions[k]? = some d) :
    (s.process newKey g view).2.2.bindings (fragmentScopeId document.scopeId k) =
      if d.fresh then [] else g.bindings (fragmentScopeId document.scopeId k) := by
  rw [(process_eq newKey s g view).2.1] at hd
  have hk : k < view.found.length := by
    rw [← length_decisions newKey s view]
    exact (List.getElem?_eq_some_iff.1 hd).1
  obtain ⟨path, hfile, heq⟩ := process_of_found newKey s g
    (List.ne_nil_of_length_pos (Nat.zero_lt_of_lt hk))
  obtain rfl := hview path hfile
  have hinj := spine_injective (.file path)
  have hpair : (view.found.zip (s.plan newKey view).decisions)[k]? = some (view.found[k], d) :=
    List.getElem?_zip_eq_some.2 ⟨List.getElem?_eq_getElem hk, hd⟩
  have hbindings : (s.wired newKey g view path).2.bindings (spine (pageScopeId path) (k + 2)) =
      if 0 ≤ k ∧ (view.found.zip (s.plan newKey view).decisions)[k - 0]?.any (·.2.fresh) = true then []
      else (g.child rootScopeId (pageScopeId path)).bindings (spine (pageScopeId path) (k + 2)) :=
    bindings_wire hinj k
  rw [Nat.sub_zero, hpair, bindings_child] at hbindings
  rw [heq]
  refine ((spine_wired newKey s view h hm).bindings_cut hinj (k := view.found.length + 2) (j := k + 2)
    (by omega) (by omega)).trans ?_
  refine hbindings.trans ?_
  simp [spine, DocumentKey.scopeId]

end Editor

end LiveNotes
