import LiveNotes.Document.Preview
import LiveNotes.Proofs.Fragment.Outcome
import LiveNotes.Proofs.Numbered
import LiveNotes.Proofs.Scope.Operation

/-! The chain of scopes that a reading view makes. Whatever the graph was before, below the scope of a
fragment there is then only that of the next one; so what a fragment reads is written by fragments
before it. -/

namespace LiveNotes

namespace Preview

variable {V : Type} {page read x y : String} {index i : Nat} {fs : List Fragment} {g : ScopeGraph V}

/-- The scope that a fragment of a chain reads. -/
def readScope (page read : String) (index i : Nat) : String :=
  if i = 0 then read else fragmentScopeId page (index + i - 1)

theorem readScope_succ (page read : String) (index i : Nat) :
    readScope page (fragmentScopeId page index) (index + 1) i = readScope page read index (i + 1) := by
  unfold readScope
  rw [if_neg (Nat.succ_ne_zero i)]
  split
  · next hi =>
    subst hi
    rfl
  · congr 1
    omega

theorem getElem?_chain (page : String) (index : Nat) (read : String) (fs : List Fragment)
    (g : ScopeGraph V) (i : Nat) :
    (chain page index read fs g).1[i]? = (fs[i]?).map fun f =>
      ⟨f.kind, f.content, ⟨readScope page read index i, fragmentScopeId page (index + i), f.component⟩,
        .start⟩ := by
  induction fs generalizing index read g i with
  | nil => simp [chain]
  | cons f fs ih =>
    cases i with
    | zero => simp [chain, readScope]
    | succ i =>
      simp only [chain, List.getElem?_cons_succ]
      rw [ih, readScope_succ page read, Nat.add_assoc, Nat.add_comm 1 i]

theorem listed_link (h : g.Listed) (read write : String) : ((g.dispose write).child read write).Listed :=
  (h.dispose write).child read write

theorem parent?_link_ne (h : g.Listed) (read write : String) :
    ((g.dispose write).child read write).parent? x ≠ some write := by
  intro hx
  rcases ScopeGraph.parent?_of_child hx with hx | ⟨-, hwrite, hne⟩
  · have hlive := (h.dispose write).isLive_parent hx
    rw [ScopeGraph.isLive_eq, ScopeGraph.scope?_dispose_self] at hlive
    contradiction
  · exact hne hwrite

/-- A chain gives parents to its own scopes alone. -/
theorem parent?_of_chain (h : (chain page index read fs g).2.parent? x = some y) :
    g.parent? x = some y ∨
      ∃ i < fs.length, x = fragmentScopeId page (index + i) ∧ y = readScope page read index i := by
  induction fs generalizing index read g with
  | nil => exact Or.inl h
  | cons f fs ih =>
    rcases ih h with hlink | ⟨i, hi, hx, hy⟩
    · rcases ScopeGraph.parent?_of_child hlink with hx | ⟨hx, hy, -⟩
      · exact Or.inl (ScopeGraph.parent?_of_dispose hx)
      · exact Or.inr ⟨0, Nat.succ_pos _, hx, hy⟩
    · refine Or.inr ⟨i + 1, Nat.succ_lt_succ hi, ?_, ?_⟩
      · rw [hx, Nat.add_assoc, Nat.add_comm 1 i]
      · rw [hy, readScope_succ page read]

/-- Below the scope of a fragment there is only that of the next one. -/
theorem eq_of_parent?_chain (hg : g.Listed) (hi : i < fs.length)
    (h : (chain page index read fs g).2.parent? x = some (fragmentScopeId page (index + i))) :
    i + 1 < fs.length ∧ x = fragmentScopeId page (index + (i + 1)) := by
  induction fs generalizing index read g i with
  | nil => exact absurd hi (Nat.not_lt_zero i)
  | cons f fs ih =>
    cases i with
    | zero =>
      have hrest : (chain page (index + 1) (fragmentScopeId page index) fs
          ((g.dispose (fragmentScopeId page index)).child read (fragmentScopeId page index))).2.parent?
            x = some (fragmentScopeId page index) := h
      -- The scope is new; only the rest of the chain can put a scope below it.
      rcases parent?_of_chain hrest with hlink | ⟨i, hi', hx, hy⟩
      · exact absurd hlink (parent?_link_ne hg read _)
      · have hzero : i = 0 := by
          by_contra hne
          rw [readScope, if_neg hne] at hy
          have hindex := fragmentScopeId_injective page hy
          omega
        subst hzero
        exact ⟨Nat.succ_lt_succ hi', hx⟩
    | succ i =>
      have hnext : index + (i + 1) = index + 1 + i := by omega
      rw [hnext] at h
      obtain ⟨hlt, hx⟩ := ih (listed_link hg read _) (Nat.lt_of_succ_lt_succ hi) h
      refine ⟨Nat.succ_lt_succ hlt, ?_⟩
      rw [hx]
      congr 1
      omega

theorem eq_of_above_chain (hg : g.Listed) (hi : i < fs.length)
    (h : Above (chain page index read fs g).2.parent? x (fragmentScopeId page (index + i))) :
    ∃ j < fs.length, i ≤ j ∧ x = fragmentScopeId page (index + j) := by
  induction h using Relation.ReflTransGen.head_induction_on with
  | refl => exact ⟨i, hi, Nat.le_refl i, rfl⟩
  | head hup _ ih =>
    obtain ⟨j, hj, hij, rfl⟩ := ih
    obtain ⟨hj', hx⟩ := eq_of_parent?_chain hg hj hup
    exact ⟨j + 1, hj', Nat.le_succ_of_le hij, hx⟩

theorem chained_chain (hg : g.Listed) (fs : List Fragment) :
    Chained (chain page 0 page fs g).2 ((chain page 0 page fs g).1.map (·.context)) := by
  have hcontext : ∀ i c, ((chain page 0 page fs g).1.map (·.context))[i]? = some c →
      i < fs.length ∧ c.read = readScope page page 0 i ∧ c.write = fragmentScopeId page i := by
    intro i c hc
    rw [List.getElem?_map, getElem?_chain, Option.map_map, Option.map_eq_some_iff] at hc
    obtain ⟨f, hf, rfl⟩ := hc
    exact ⟨(List.getElem?_eq_some_iff.1 hf).1, rfl, congrArg (fragmentScopeId page) (Nat.zero_add i)⟩
  -- What leads up to the scope of a fragment is the scope of a later one or of itself.
  have hbehind : ∀ (i j : Nat) (c d : FragmentContext),
      ((chain page 0 page fs g).1.map (·.context))[i]? = some c →
      ((chain page 0 page fs g).1.map (·.context))[j]? = some d → i ≤ j →
        ¬ Above (chain page 0 page fs g).2.parent? c.read d.write := by
    intro i j c d hc hd hij habove
    obtain ⟨-, hread, -⟩ := hcontext i c hc
    obtain ⟨hlt, -, hwrite⟩ := hcontext j d hd
    rw [hread, hwrite, ← Nat.zero_add j] at habove
    obtain ⟨m, -, hm, heq⟩ := eq_of_above_chain hg hlt habove
    rw [Nat.zero_add] at heq
    unfold readScope at heq
    split at heq
    · exact fragmentScopeId_ne page m heq.symm
    · have hindex := fragmentScopeId_injective page heq
      omega
  refine ⟨?_, ?_, ?_⟩
  · rw [List.nodup_iff_injective_getElem]
    intro i j hij
    simp only [List.getElem_map] at hij
    have hi := hcontext i _ (List.getElem?_eq_getElem (by simpa using i.2))
    have hj := hcontext j _ (List.getElem?_eq_getElem (by simpa using j.2))
    rw [List.getElem_map] at hi hj
    rw [hi.2.2, hj.2.2] at hij
    exact Fin.ext (fragmentScopeId_injective page hij)
  · rw [List.pairwise_iff_getElem]
    intro i j hi hj hij
    exact hbehind i j _ _ (List.getElem?_eq_getElem hi) (List.getElem?_eq_getElem hj) (Nat.le_of_lt hij)
  · intro c hc
    obtain ⟨i, hi⟩ := List.mem_iff_getElem?.1 hc
    exact hbehind i i c c hi hi (Nat.le_refl i)

theorem chained_rebuild (p : Preview V) (w : World V) (hw : w.graph.Reachable) :
    ∃ jobs, (p.rebuild w).1.stage = .running jobs ∧
      Chained (p.rebuild w).2.graph (jobs.map (·.context)) ∧ ∀ j ∈ jobs, j.stage = .start := by
  refine ⟨_, rfl, chained_chain (hw.listed.disposeDescendants _) _, ?_⟩
  intro j hj
  obtain ⟨i, hi⟩ := List.mem_iff_getElem?.1 hj
  rw [getElem?_chain, Option.map_eq_some_iff] at hi
  obtain ⟨f, -, rfl⟩ := hi
  rfl

end Preview

end LiveNotes
