import LiveNotes.Proofs.Plan.Renewal

/-! Passes over one document, each going on from the cache of the one before. The key of a fragment is
the one that was drawn when the fragment was last renewed, which the documents alone tell. From this it
is said exactly when the key of a fragment was drawn for the code it has, and when the key of one
fragment is at least as new as that of an earlier one. -/

namespace LiveNotes.Plan

/-- The fragments that each of some passes has found, those of the last pass first. -/
abbrev Passes := List (List Fragment)

namespace Passes

variable {newKey : KeySource} {g h : Passes} {i : Nat}

def now (h : Passes) : List Fragment := h.headD []

def before (h : Passes) : List Fragment := h.tail.headD []

def plan (newKey : KeySource) : Passes → PassPlan
  | [] => ⟨[], [], 0⟩
  | fs :: past => planPass newKey (plan newKey past).drawn (plan newKey past).cache fs

/-- The key that the last pass of `h` decides on for a fragment was drawn by the last pass of `g`. -/
def KeyFrom (newKey : KeySource) (h g : Passes) (i : Nat) : Prop :=
  g <:+ h ∧ ∃ d d', (h.plan newKey).decisions[i]? = some d ∧
    (g.plan newKey).decisions[i]? = some d' ∧ d'.fresh = true ∧ d'.key = d.key

def Renews (h : Passes) (i : Nat) : Prop := i < h.now.length ∧ Renewed h.before h.now i

/-- No pass from the last one of `g` on renews a fragment. -/
def Stands (h g : Passes) (i : Nat) : Prop :=
  ∀ c : Passes, g <:+ c → c <:+ h → ¬ Renewed c.before c.now i

/-- The passes up to the last one that has renewed a fragment. -/
def renewal : Passes → Nat → Passes
  | [], _ => []
  | fs :: past, i => if Renewed (now past) fs i then fs :: past else renewal past i

/-! ### Where keys come from -/

theorem renewal_suffix (h : Passes) (i : Nat) : h.renewal i <:+ h := by
  induction h with
  | nil => exact List.suffix_rfl
  | cons fs past ih =>
    unfold renewal
    split
    · exact List.suffix_rfl
    · exact ih.trans (List.suffix_cons fs past)

theorem lt_length_of_not_renewed {fs : List Fragment} (hr : ¬ Renewed h.now fs i) :
    i < h.now.length := by
  by_contra hi
  exact hr (Or.inl (not_lt.1 hi))

theorem remembers_plan (newKey : KeySource) (h : Passes) :
    Remembers (h.plan newKey).cache h.now := by
  cases h with
  | nil => rfl
  | cons fs past => exact remembers_planPass _ _

theorem drawn_le_drawn (hg : g <:+ h) : (g.plan newKey).drawn ≤ (h.plan newKey).drawn := by
  induction h with
  | nil =>
    rw [List.suffix_nil.1 hg]
  | cons fs past ih =>
    rcases List.suffix_cons_iff.1 hg with rfl | hg
    · exact le_rfl
    · exact (ih hg).trans (le_walk newKey _ {} (plan newKey past).cache fs)

/-- The decision on a fragment of the last pass, by what the pass before has left. -/
theorem decision_plan (newKey : KeySource) (past : Passes) {fs : List Fragment}
    (hi : i < fs.length) :
    ∃ d, (plan newKey (fs :: past)).decisions[i]? = some d ∧
      (plan newKey (fs :: past)).cache[i]?.map (·.key) = some d.key ∧
      (d.fresh = true ↔ Renewed (now past) fs i) ∧
      (Renewed (now past) fs i → ∃ n, (plan newKey past).drawn ≤ n ∧
        n < (plan newKey (fs :: past)).drawn ∧ d.key = newKey n) ∧
      (¬ Renewed (now past) fs i → (plan newKey past).cache[i]?.map (·.key) = some d.key) :=
  decision_planPass (remembers_plan newKey past) (List.getElem?_eq_getElem hi)

theorem exists_decision (newKey : KeySource) (hi : i < h.now.length) :
    ∃ d, (h.plan newKey).decisions[i]? = some d ∧
      (h.plan newKey).cache[i]?.map (·.key) = some d.key := by
  cases h with
  | nil => simp [now] at hi
  | cons fs past =>
    obtain ⟨d, hd, hc, -⟩ := decision_plan newKey past hi
    exact ⟨d, hd, hc⟩

theorem keyFrom_renewal (newKey : KeySource) (hi : i < h.now.length) :
    KeyFrom newKey h (h.renewal i) i := by
  induction h with
  | nil => simp [now] at hi
  | cons fs past ih =>
    obtain ⟨d, hd, -, hfresh, -, hkept⟩ := decision_plan newKey past hi
    by_cases hr : Renewed (now past) fs i
    · rw [renewal, if_pos hr]
      exact ⟨List.suffix_rfl, d, d, hd, hd, hfresh.2 hr, rfl⟩
    · obtain ⟨hs, e, d', he, hd', hfresh', hkey⟩ := ih (lt_length_of_not_renewed hr)
      obtain ⟨e', he', hc⟩ := exists_decision newKey (lt_length_of_not_renewed hr)
      rw [renewal, if_neg hr]
      have hkey' : e.key = d.key := by
        rw [he, Option.some.injEq] at he'
        rw [he']
        exact Option.some.inj (hc.symm.trans (hkept hr))
      exact ⟨hs.trans (List.suffix_cons fs past), d, d', hd, hd', hfresh', hkey.trans hkey'⟩

/-- A pass that gives a fresh key draws it between the passes before it and itself. -/
theorem drawn_of_fresh {d : KeyDecision} (hd : (g.plan newKey).decisions[i]? = some d)
    (hf : d.fresh = true) :
    ∃ n, ((plan newKey g.tail).drawn) ≤ n ∧ n < (g.plan newKey).drawn ∧ d.key = newKey n := by
  cases g with
  | nil => simp [plan] at hd
  | cons fs past =>
    have hi : i < fs.length := by
      have hlt := (List.getElem?_eq_some_iff.1 hd).1
      simpa [plan, planPass, length_walk] using hlt
    obtain ⟨e, he, -, hfresh, hdraw, -⟩ := decision_plan newKey past hi
    rw [hd, Option.some.injEq] at he
    subst he
    exact hdraw (hfresh.1 hf)

theorem eq_of_drawn {n : Nat} (hk : g <:+ h) (hg : n < (g.plan newKey).drawn)
    (hh : (plan newKey h.tail).drawn ≤ n) : g = h := by
  cases h with
  | nil => exact List.suffix_nil.1 hk
  | cons fs past =>
    rcases List.suffix_cons_iff.1 hk with rfl | hk
    · rfl
    · exact absurd (hg.trans_le (drawn_le_drawn hk)) (not_lt.2 hh)

/-- As keys do not repeat, the key of a fragment comes from the pass that last renewed it. -/
theorem keyFrom_iff (hk : Function.Injective newKey) (hi : i < h.now.length) :
    KeyFrom newKey h g i ↔ g = h.renewal i := by
  refine ⟨fun hg => ?_, fun hg => hg ▸ keyFrom_renewal newKey hi⟩
  obtain ⟨hs, d, d', hd, hd', hfresh, hkey⟩ := hg
  obtain ⟨hs₁, e, e', he, he', hfresh', hkey'⟩ := keyFrom_renewal newKey hi
  obtain ⟨n, hn, hn', hdn⟩ := drawn_of_fresh hd' hfresh
  obtain ⟨m, hm, hm', hem⟩ := drawn_of_fresh he' hfresh'
  have hnm : n = m := by
    apply hk
    rw [hd, Option.some.injEq] at he
    rw [← hdn, ← hem, hkey, hkey', he]
  subst hnm
  -- Of two passes one goes on from the other, and only one of them has drawn the number.
  rcases List.suffix_or_suffix_of_suffix hs hs₁ with hsub | hsub
  · exact eq_of_drawn hsub hn' hm
  · exact (eq_of_drawn hsub hm' hn).symm

theorem not_suffix_tail (hg : g <:+ h) (hne : g ≠ []) : ¬ h <:+ g.tail := by
  intro hh
  have h₁ := hg.length_le
  have h₂ := hh.length_le
  have h₃ := List.length_pos_of_ne_nil hne
  rw [List.length_tail] at h₂
  omega

theorem stands_iff (hg : g <:+ h) (hne : g ≠ []) : Stands h g i ↔ h.renewal i <:+ g.tail := by
  induction h with
  | nil => exact absurd (List.suffix_nil.1 hg) hne
  | cons fs past ih =>
    by_cases hr : Renewed (now past) fs i
    · rw [renewal, if_pos hr]
      exact iff_of_false (fun hs => hs _ hg List.suffix_rfl hr) (not_suffix_tail hg hne)
    · rw [renewal, if_neg hr]
      rcases List.suffix_cons_iff.1 hg with rfl | hg
      · refine iff_of_true ?_ (renewal_suffix past i)
        intro c hc hc'
        rwa [List.IsSuffix.eq_of_length_le hc' hc.length_le]
      · rw [← ih hg]
        constructor
        · exact fun hs c hc hc' => hs c hc (hc'.trans (List.suffix_cons fs past))
        · intro hs c hc hc'
          rcases List.suffix_cons_iff.1 hc' with rfl | hc'
          · exact hr
          · exact hs c hc hc'

end Passes

end LiveNotes.Plan
