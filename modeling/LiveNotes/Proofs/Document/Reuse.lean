import LiveNotes.Proofs.Document.Pass
import LiveNotes.Proofs.Plan.Passes

/-! Keys that are reused when the document of an editor changes. What is kept from one pass to the next
does not say which document it is from. So a reused key is the one of the pass just before, whatever that
was over, and it was decided for a document exactly if that has been open since the key was drawn. -/

namespace LiveNotes

namespace Plan.Passes

variable {newKey : KeySource} {g h : Passes} {i : Nat} {d : KeyDecision}

theorem lt_length_of_decision (hd : (h.plan newKey).decisions[i]? = some d) : i < h.now.length := by
  have hlt := (List.getElem?_eq_some_iff.1 hd).1
  cases h with
  | nil => simp [plan] at hlt
  | cons fs past => simpa [plan, planPass, length_walk, now] using hlt

theorem renewal_of_suffix (hg : g <:+ h) (hr : h.renewal i <:+ g) (hi : i < h.now.length) :
    g.renewal i = h.renewal i ∧ i < g.now.length := by
  induction h with
  | nil => simp [now] at hi
  | cons fs past ih =>
    rcases List.suffix_cons_iff.1 hg with rfl | hg
    · exact ⟨rfl, hi⟩
    · rw [renewal] at hr ⊢
      split at hr
      · have hle := (hr.trans hg).length_le
        rw [List.length_cons] at hle
        omega
      · next hkept =>
        rw [if_neg hkept]
        exact ih hg hr (lt_length_of_not_renewed hkept)

/-- As keys do not repeat, the passes with the key of a fragment are those from its last renewal on. -/
theorem key_eq_iff (hk : Function.Injective newKey) (hg : g <:+ h)
    (hd : (h.plan newKey).decisions[i]? = some d) (hi : i < h.now.length) :
    (g.plan newKey).decisions[i]?.map (·.key) = some d.key ↔ h.renewal i <:+ g := by
  constructor
  · intro hkey
    obtain ⟨d', hd', hkey⟩ := Option.map_eq_some_iff.1 hkey
    have hi' : i < g.now.length := lt_length_of_decision hd'
    obtain ⟨hs, e, r, he, hr, hfresh, hre⟩ := keyFrom_renewal newKey hi'
    have hfrom : KeyFrom newKey h (g.renewal i) i := by
      rw [hd', Option.some.injEq] at he
      exact ⟨hs.trans hg, d, r, hd, hr, hfresh, by rw [hre, ← he, hkey]⟩
    rw [← (keyFrom_iff hk hi).1 hfrom]
    exact renewal_suffix g i
  · intro hr
    obtain ⟨heq, hi'⟩ := renewal_of_suffix hg hr hi
    obtain ⟨-, e, r, he, hr, -, hre⟩ := keyFrom_renewal newKey hi
    obtain ⟨-, e', r', he', hr', -, hre'⟩ := keyFrom_renewal newKey hi'
    rw [heq, hr, Option.some.injEq] at hr'
    rw [hd, Option.some.injEq] at he
    rw [he', Option.map_some, ← hre', ← hr', hre, he]

end Plan.Passes

namespace Editor

variable {newKey : KeySource} {past : List (EditorView × EditorPass)} {view : EditorView}
  {pass : EditorPass} {s : Editor} {i : RenderInstruction}

/-- The passes that an editor has made and what each was made over, the last one first. Scopes may be
changed in any way between passes. -/
inductive Passed (newKey : KeySource) : List (EditorView × EditorPass) → Editor → Prop
  | new : Passed newKey [] {}
  | pass {V : Type} {past : List (EditorView × EditorPass)} {s : Editor} (g : ScopeGraph V)
      (view : EditorView) : Passed newKey past s →
      Passed newKey ((view, (s.process newKey g view).1) :: past) (s.process newKey g view).2.1

def found (past : List (EditorView × EditorPass)) : Plan.Passes := past.map (·.1.found)

/-- A pass over a document has decided on a key for the fragment at an index. -/
def DecidedFor (past : List (EditorView × EditorPass)) (path : String) (index : Nat) (key : String) :
    Prop :=
  ∃ p ∈ past, p.1.file = some path ∧ p.2.decisions[index]?.map (·.key) = some key

/-- A document was open in a pass not before the one that last renewed the fragment at an index. -/
def OpenSinceRenewal (past : List (EditorView × EditorPass)) (path : String) (index : Nat) : Prop :=
  ∃ p older, p :: older <:+ past ∧ p.1.file = some path ∧
    (found past).renewal index <:+ found (p :: older)

/-! ### What passes leave -/

theorem Passed.kept_eq (h : Passed newKey past s) :
    s = ⟨((found past).plan newKey).cache, ((found past).plan newKey).drawn⟩ := by
  induction h with
  | new => rfl
  | @pass V past s g view _ ih =>
    rw [(process_eq newKey s g view).2.2]
    unfold Editor.plan
    rw [ih]
    rfl

theorem Passed.decisions_eq {p : EditorView × EditorPass} {older : List (EditorView × EditorPass)}
    (h : Passed newKey past s) (hp : p :: older <:+ past) :
    p.2.decisions = ((found (p :: older)).plan newKey).decisions := by
  induction h with
  | new => simp at hp
  | @pass V past s g view hpast ih =>
    rcases List.suffix_cons_iff.1 hp with heq | hp
    · obtain ⟨rfl, rfl⟩ := List.cons.inj heq
      refine (process_eq newKey s g view).2.1.trans ?_
      unfold Editor.plan
      rw [hpast.kept_eq]
      rfl
    · exact ih hp

theorem decidedFor_iff_exists_suffix {path key : String} {index : Nat} :
    DecidedFor past path index key ↔ ∃ p older, p :: older <:+ past ∧ p.1.file = some path ∧
      p.2.decisions[index]?.map (·.key) = some key := by
  constructor
  · rintro ⟨p, hp, hfile, hkey⟩
    obtain ⟨newer, older, rfl⟩ := List.append_of_mem hp
    exact ⟨p, older, List.suffix_append newer (p :: older), hfile, hkey⟩
  · rintro ⟨p, older, hp, hfile, hkey⟩
    exact ⟨p, hp.subset List.mem_cons_self, hfile, hkey⟩

/-- A reused key is that of the pass just before, and no new one is due. -/
theorem Passed.decision_of_reused (h : Passed newKey ((view, pass) :: past) s) (hi : i ∈ pass.instructions)
    (hreused : i.reused = true) : ∃ d, ((found past).plan newKey).decisions[i.index]? = some d ∧
      d.key = i.key ∧ i.index < (found past).now.length := by
  generalize hall : (view, pass) :: past = all at h
  cases h with
  | new => contradiction
  | @pass V past' s' g view' hpast =>
    obtain ⟨hlast, rfl⟩ := List.cons.inj hall
    obtain ⟨rfl, rfl⟩ := Prod.mk.inj hlast
    obtain ⟨path, f, d, -, hf, hd, -, heq⟩ := mem_instructions hi
    have hdecisions := (Passed.pass g view hpast).decisions_eq List.suffix_rfl
    rw [hdecisions] at hd
    obtain ⟨d', hd', -, hfresh, -, hkept⟩ := Plan.Passes.decision_plan newKey (found past)
      (List.getElem?_eq_some_iff.1 hf).1
    obtain rfl : d = d' := Option.some.inj (hd.symm.trans hd')
    have hkey : i.key = d.key := congrArg RenderInstruction.key heq
    have hnew : i.reused = !d.fresh := congrArg RenderInstruction.reused heq
    have hstays : ¬ Plan.Renewed (found past).now view.found i.index := by
      rw [← hfresh]
      simpa [hreused] using hnew
    have hlt := Plan.Passes.lt_length_of_not_renewed hstays
    obtain ⟨e, he, hcache⟩ := Plan.Passes.exists_decision newKey hlt
    refine ⟨e, he, ?_, hlt⟩
    rw [hkey]
    exact Option.some.inj (hcache.symm.trans (hkept hstays))

/-- A reused key was decided for a document by an earlier pass exactly if that document has been open
since the key was drawn, whichever document the key is now used for. -/
theorem decidedFor_iff (hk : Function.Injective newKey) (h : Passed newKey ((view, pass) :: past) s)
    (hi : i ∈ pass.instructions) (hreused : i.reused = true) (path : String) :
    DecidedFor past path i.index i.key ↔ OpenSinceRenewal past path i.index := by
  obtain ⟨d, hd, hkey, hlt⟩ := h.decision_of_reused hi hreused
  rw [decidedFor_iff_exists_suffix]
  refine exists_congr fun p => exists_congr fun older => and_congr_right fun hp => and_congr_right fun _ => ?_
  have hsuffix : found (p :: older) <:+ found past := hp.map _
  rw [h.decisions_eq (hp.trans (List.suffix_cons _ past)), ← hkey]
  exact Plan.Passes.key_eq_iff hk hsuffix hd hlt

/-! ### Two documents with the same fragment -/

def firstView : EditorView := { file := some "a.md", text := "`ldjs: 1`" }

def secondView : EditorView := { file := some "b.md", text := "`ldjs: 1`" }

/-- The passes over both documents, on scopes that begin with the root alone. -/
def firstPass : EditorPass × Editor × ScopeGraph Unit :=
  ({} : Editor).process toString (.new : ScopeGraph Unit) firstView

def secondPass : EditorPass × Editor × ScopeGraph Unit :=
  firstPass.2.1.process toString firstPass.2.2 secondView

theorem passed_second : Passed toString [(secondView, secondPass.1), (firstView, firstPass.1)]
    secondPass.2.1 :=
  .pass _ _ (.pass _ _ .new)

theorem exists_reused_second :
    ∃ i ∈ secondPass.1.instructions, i.index = 0 ∧ i.key = "0" ∧ i.reused = true := by
  have hone : secondPass.1.instructions.map (fun i => (i.index, i.key, i.reused)) = [(0, "0", true)] := by
    decide +kernel
  obtain ⟨i, hi, heq⟩ := List.mem_map.1 (hone ▸ List.mem_singleton.2 rfl)
  simp only [Prod.mk.injEq] at heq
  obtain ⟨hindex, hkey, hreused⟩ := heq
  exact ⟨i, hi, hindex, hkey, hreused⟩

theorem decidedFor_iff_second :
    Function.Injective (toString : Nat → String) ∧
      Passed toString [(secondView, secondPass.1), (firstView, firstPass.1)] secondPass.2.1 ∧
      ∃ i ∈ secondPass.1.instructions, i.reused = true ∧
        (DecidedFor [(firstView, firstPass.1)] "a.md" i.index i.key ↔
          OpenSinceRenewal [(firstView, firstPass.1)] "a.md" i.index) := by
  obtain ⟨i, hi, -, -, hreused⟩ := exists_reused_second
  exact ⟨toString_injective, passed_second, i, hi, hreused,
    decidedFor_iff toString_injective passed_second hi hreused "a.md"⟩

/-- The fragment of the second document goes on under the key of the first one. -/
theorem reused_from_other_document :
    Passed toString [(secondView, secondPass.1), (firstView, firstPass.1)] secondPass.2.1 ∧
      secondView.file = some "b.md" ∧ ∃ i ∈ secondPass.1.instructions, i.index = 0 ∧ i.key = "0" ∧
        i.reused = true ∧ ¬ DecidedFor [(firstView, firstPass.1)] "b.md" i.index i.key := by
  obtain ⟨i, hi, hindex, hkey, hreused⟩ := exists_reused_second
  refine ⟨passed_second, rfl, i, hi, hindex, hkey, hreused, ?_⟩
  rintro ⟨p, hp, hfile, -⟩
  rw [List.mem_singleton.1 hp] at hfile
  exact absurd hfile (by decide)

end Editor

end LiveNotes
