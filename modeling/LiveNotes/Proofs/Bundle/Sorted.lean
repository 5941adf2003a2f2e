import LiveNotes.Proofs.Bundle.Reach
import Mathlib.Data.Fintype.EquivFin

/-! The order in which modules stand behind what they import. A module is taken when all its imports are, so
each one that leads into no circle of imports stands behind them. The others are left over and follow in the
order of their indices, whether they lie on a circle or only lead into one. -/

namespace LiveNotes.Bundle

open Relation

namespace ModuleGraph

variable {g : ModuleGraph} {links : List (Nat × Nat)} {waiting queue done importers : List Nat} {n fuel i j k d : Nat}

/-! ### Imports are counted off -/

theorem getD_set (hi : i < waiting.length) (left j : Nat) :
    (waiting.set i left).getD j 0 = if i = j then left else waiting.getD j 0 := by
  by_cases h : i = j
  · subst h
    simp [hi]
  · simp [h, List.getD_eq_getElem?_getD, List.getElem?_set_ne h]

/-- Each module waits for as many imports less as it is among the importers, and those that come to wait for none are
queued. -/
theorem exists_release (hlt : ∀ i ∈ importers, i < waiting.length)
    (hcount : ∀ i, importers.count i ≤ waiting.getD i 0) (queue : List Nat) :
    ∃ waiting' fresh, release waiting queue importers = (waiting', queue ++ fresh) ∧
      waiting'.length = waiting.length ∧ (∀ j, waiting'.getD j 0 = waiting.getD j 0 - importers.count j) ∧
      fresh.Nodup ∧ ∀ j, j ∈ fresh ↔ j ∈ importers ∧ waiting'.getD j 0 = 0 := by
  induction importers generalizing waiting queue with
  | nil => exact ⟨waiting, [], by rw [release, List.append_nil], rfl, by simp, List.nodup_nil, by simp⟩
  | cons i importers ih =>
    obtain ⟨hi, hrest⟩ := List.forall_mem_cons.1 hlt
    have hset := getD_set hi (waiting.getD i 0 - 1)
    have hself := hcount i
    rw [List.count_cons_self] at hself
    have hleft : ∀ j, importers.count j ≤ (waiting.set i (waiting.getD i 0 - 1)).getD j 0 := by
      intro j
      rw [hset]
      split
      · next heq => exact heq ▸ Nat.le_sub_one_of_lt hself
      · exact Nat.le_trans List.count_le_count_cons (hcount j)
    obtain ⟨waiting', fresh, heq, hlength, hwaiting, hnodup, hmem⟩ := ih (by simpa using hrest) hleft
      (if waiting.getD i 0 - 1 = 0 then queue ++ [i] else queue)
    have hless : ∀ j, waiting'.getD j 0 = waiting.getD j 0 - (i :: importers).count j := by
      intro j
      rw [hwaiting, hset, List.count_cons]
      by_cases hij : i = j
      · subst hij
        simp only [if_true, beq_self_eq_true]
        omega
      · simp [hij]
    rw [List.length_set] at hlength
    by_cases hzero : waiting.getD i 0 - 1 = 0
    · -- The last import of `i` is counted off, so it is not among the importers again.
      have hnew : i ∉ importers := by
        rw [← List.count_eq_zero]
        omega
      rw [if_pos hzero, List.append_assoc] at heq
      refine ⟨waiting', i :: fresh, by rw [release, if_pos hzero]; exact heq, hlength, hless, ?_, ?_⟩
      · exact List.nodup_cons.2 ⟨fun hfresh => hnew ((hmem i).1 hfresh).1, hnodup⟩
      · intro j
        rw [List.mem_cons, List.mem_cons, hmem, or_and_right]
        refine or_congr_left (iff_self_and.2 ?_)
        rintro rfl
        rw [hless, List.count_cons_self]
        omega
    · rw [if_neg hzero] at heq
      refine ⟨waiting', fresh, by rw [release, if_neg hzero]; exact heq, hlength, hless, hnodup, ?_⟩
      intro j
      rw [hmem, List.mem_cons, or_and_right]
      refine ⟨Or.inr, fun h => h.elim ?_ id⟩
      rintro ⟨rfl, hnone⟩
      refine ⟨?_, hnone⟩
      rw [← List.count_pos_iff]
      rw [hless, List.count_cons_self] at hnone
      omega

/-- How many imports of the module `i` are not done. -/
def pending (links : List (Nat × Nat)) (done : List Nat) (i : Nat) : Nat :=
  links.countP fun l => l.2 == i && !done.contains l.1

theorem pending_eq_zero : pending links done i = 0 ↔ ∀ d, (d, i) ∈ links → d ∈ done := by
  rw [pending, List.countP_eq_zero]
  constructor
  · intro h d hd
    simpa using h (d, i) hd
  · rintro h ⟨d, k⟩ hl hpending
    obtain ⟨rfl, hnot⟩ : k = i ∧ d ∉ done := by simpa using hpending
    exact hnot (h d hl)

theorem pending_concat (links : List (Nat × Nat)) (hi : i ∉ done) (j : Nat) :
    pending links (done ++ [i]) j = pending links done j - ((links.filter (·.1 == i)).map (·.2)).count j ∧
      ((links.filter (·.1 == i)).map (·.2)).count j ≤ pending links done j := by
  have hsum : pending links (done ++ [i]) j + ((links.filter (·.1 == i)).map (·.2)).count j =
      pending links done j := by
    rw [List.count_eq_countP, List.countP_map, List.countP_filter]
    induction links with
    | nil => rfl
    | cons l links ih =>
      simp only [pending, List.countP_cons, Function.comp_apply] at ih ⊢
      rw [← ih]
      by_cases hj : l.2 = j
      · by_cases hl : l.1 = i
        · simp [hj, hl, hi]
          omega
        · by_cases hdone : l.1 ∈ done
          · simp [hj, hl, hdone]
          · simp [hj, hl, hdone]
            omega
      · simp [hj]
  omega

/-! ### What is taken from the queue -/

/-- How the modules below `n` stand with some of them taken and some queued: these are the ones all of whose imports
are taken, and those that are taken stand behind their imports. -/
structure Sorting (links : List (Nat × Nat)) (n : Nat) (done queue waiting : List Nat) : Prop where
  length : waiting.length = n
  nodup : (done ++ queue).Nodup
  waiting : ∀ i, waiting.getD i 0 = pending links done i
  mem : ∀ i, i ∈ done ++ queue ↔ i < n ∧ ∀ d, (d, i) ∈ links → d ∈ done
  behind : ∀ before i after, done = before ++ i :: after → ∀ d, (d, i) ∈ links → d ∈ before

theorem Sorting.next (h : Sorting links n done (i :: queue) waiting) (hlinks : ∀ l ∈ links, l.2 < n) :
    ∃ waiting' queue', release waiting queue ((links.filter (·.1 == i)).map (·.2)) = (waiting', queue') ∧
      Sorting links n (done ++ [i]) queue' waiting' := by
  have hnew : i ∉ done := fun hi => (List.nodup_append.1 h.nodup).2.2 i hi i List.mem_cons_self rfl
  have hpending := pending_concat links hnew
  have hlt : ∀ j ∈ (links.filter (·.1 == i)).map (·.2), j < waiting.length := by
    intro j hj
    obtain ⟨l, hl, rfl⟩ := List.mem_map.1 hj
    exact h.length ▸ hlinks l (List.mem_filter.1 hl).1
  obtain ⟨waiting', fresh, heq, hlength, hwaiting, hnodup, hmem⟩ :=
    exists_release hlt (fun j => (h.waiting j).symm ▸ (hpending j).2) queue
  have hleft : ∀ j, waiting'.getD j 0 = pending links (done ++ [i]) j :=
    fun j => by rw [hwaiting, h.waiting, (hpending j).1]
  have hold : done ++ [i] ++ (queue ++ fresh) = done ++ i :: queue ++ fresh := by simp
  refine ⟨waiting', queue ++ fresh, heq, hlength.trans h.length, ?_, hleft, ?_, ?_⟩
  · rw [hold]
    refine List.nodup_append.2 ⟨h.nodup, hnodup, fun a ha b hb => ?_⟩
    -- What waits for nothing is among no importers.
    rintro rfl
    have hnone := pending_eq_zero.2 ((h.mem a).1 ha).2
    have hcount := List.count_pos_iff.2 ((hmem a).1 hb).1
    have hle := (hpending a).2
    omega
  · intro j
    rw [← pending_eq_zero, hold, List.mem_append, h.mem, ← pending_eq_zero, hmem, hleft]
    have hdone := hpending j
    constructor
    · rintro (⟨hj, hnone⟩ | ⟨hj, hnone⟩)
      · exact ⟨hj, by omega⟩
      · exact ⟨h.length ▸ hlt j hj, hnone⟩
    · rintro ⟨hj, hnone⟩
      by_cases hbefore : pending links done j = 0
      · exact Or.inl ⟨hj, hbefore⟩
      · exact Or.inr ⟨List.count_pos_iff.1 (by omega), hnone⟩
  · intro before j after hsplit d hd
    rcases List.eq_nil_or_concat after with rfl | ⟨after, last, rfl⟩
    · obtain ⟨rfl, hlast⟩ := List.append_inj' hsplit rfl
      obtain rfl := List.singleton_inj.1 hlast
      exact ((h.mem i).1 (List.mem_append_right _ List.mem_cons_self)).2 d hd
    · rw [List.concat_eq_append, ← List.cons_append, ← List.append_assoc] at hsplit
      obtain ⟨rfl, -⟩ := List.append_inj' hsplit rfl
      exact h.behind before j after rfl d hd

/-- As many steps as there are modules left empty the queue. -/
theorem Sorting.run (h : Sorting links n done queue waiting) (hlinks : ∀ l ∈ links, l.2 < n)
    (hfuel : n ≤ fuel + done.length) :
    ∃ waiting', Sorting links n (done ++ sortFrom links fuel waiting queue) [] waiting' := by
  induction fuel generalizing done queue waiting with
  | zero =>
    have hle : (done ++ queue).length ≤ (List.range n).length :=
      (List.subperm_of_subset h.nodup fun i hi => List.mem_range.2 ((h.mem i).1 hi).1).length_le
    rw [List.length_append, List.length_range] at hle
    obtain rfl : queue = [] := List.eq_nil_of_length_eq_zero (by omega)
    exact ⟨waiting, by rwa [sortFrom, List.append_nil]⟩
  | succ fuel ih =>
    cases queue with
    | nil => exact ⟨waiting, (List.append_nil done).symm ▸ h⟩
    | cons i queue =>
      obtain ⟨waiting', queue', heq, hnext⟩ := h.next hlinks
      obtain ⟨waiting'', hlast⟩ := ih hnext (by rw [List.length_append, List.length_singleton]; omega)
      refine ⟨waiting'', ?_⟩
      rw [sortFrom, heq]
      rwa [List.append_assoc] at hlast

/-- How many imports each module waits for at first. -/
def firstWaiting (g : ModuleGraph) : List Nat :=
  (List.range g.size).map fun i => (g.links.filter (·.2 == i)).length

/-- The modules that wait for none at first. -/
def firstQueue (g : ModuleGraph) : List Nat := (List.range g.size).filter fun i => g.firstWaiting.getD i 0 == 0

/-- The modules that are taken from the queue. -/
def taken (g : ModuleGraph) : List Nat := sortFrom g.links g.size g.firstWaiting g.firstQueue

theorem sorted_eq (g : ModuleGraph) :
    g.sorted = g.taken ++ (List.range g.size).filter (!g.taken.contains ·) := rfl

theorem mem_links : (d, i) ∈ g.links ↔ g.Imports false i d := by
  rw [links, List.mem_flatMap]
  constructor
  · rintro ⟨⟨m, j⟩, hm, hd⟩
    obtain ⟨d', hd', heq⟩ := List.mem_map.1 hd
    obtain ⟨rfl, rfl⟩ := Prod.mk.inj heq
    exact ⟨m, List.mem_zipIdx_iff_getElem?.1 hm, hd'⟩
  · rintro ⟨m, hm, hd⟩
    exact ⟨(m, i), List.mem_zipIdx_iff_getElem?.2 hm, List.mem_map_of_mem hd⟩

theorem lt_of_mem_links {l : Nat × Nat} (h : l ∈ g.links) : l.2 < g.size := (mem_links.1 h).lt.1

theorem exists_sorting_taken (g : ModuleGraph) : ∃ waiting, Sorting g.links g.size g.taken [] waiting := by
  have hwaiting : ∀ i, g.firstWaiting.getD i 0 = pending g.links [] i := by
    intro i
    by_cases hi : i < g.size
    · simp [firstWaiting, List.getD_eq_getElem?_getD, hi, pending, List.countP_eq_length_filter]
    · have hnone : pending g.links [] i = 0 := by
        refine pending_eq_zero.2 fun d hd => absurd (lt_of_mem_links hd) hi
      simp [firstWaiting, List.getD_eq_getElem?_getD, hi, hnone]
  have hstart : Sorting g.links g.size [] g.firstQueue g.firstWaiting := by
    refine ⟨by simp [firstWaiting], List.nodup_range.filter _, hwaiting, ?_, ?_⟩
    · intro i
      rw [List.nil_append, firstQueue, List.mem_filter, List.mem_range, hwaiting, beq_iff_eq, pending_eq_zero]
    · intro before i after h
      simp at h
  exact hstart.run (fun l hl => lt_of_mem_links hl) (Nat.le_add_right ..)

/-! ### Circles -/

/-- Static imports lead from the module into a circle, or it lies on one. -/
def LeadsIntoCircle (g : ModuleGraph) (i : Nat) : Prop :=
  ∃ k, ReflTransGen (g.Imports false) i k ∧ TransGen (g.Imports false) k k

theorem mem_taken_of_imports (hi : i ∈ g.taken) (h : g.Imports false i d) : d ∈ g.taken := by
  obtain ⟨waiting, hsorting⟩ := g.exists_sorting_taken
  rw [← List.append_nil g.taken, hsorting.mem] at hi
  exact hi.2 d (mem_links.2 h)

theorem idxOf_taken_lt (hi : i ∈ g.taken) (h : g.Imports false i d) : g.taken.idxOf d < g.taken.idxOf i := by
  obtain ⟨waiting, hsorting⟩ := g.exists_sorting_taken
  have hnodup := hsorting.nodup
  rw [List.append_nil] at hnodup
  obtain ⟨before, after, heq⟩ := List.append_of_mem hi
  have hd := hsorting.behind before i after heq d (mem_links.2 h)
  rw [heq] at hnodup ⊢
  have hnew : i ∉ before := fun hmem => (List.nodup_append.1 hnodup).2.2 i hmem i List.mem_cons_self rfl
  rw [List.idxOf_append_of_mem hd, List.idxOf_append_of_notMem hnew]
  exact Nat.lt_add_right _ (List.idxOf_lt_length_of_mem hd)

/-- What leads into a circle, and nothing else, is never taken. -/
theorem mem_taken : i ∈ g.taken ↔ i < g.size ∧ ¬ g.LeadsIntoCircle i := by
  obtain ⟨waiting, hsorting⟩ := g.exists_sorting_taken
  have hmem := hsorting.mem
  rw [List.append_nil] at hmem
  constructor
  · intro hi
    refine ⟨((hmem i).1 hi).1, ?_⟩
    rintro ⟨k, hik, hkk⟩
    -- All that a taken module leads to is taken and stands in front of it, so none of this lies on a circle.
    have hreached : ∀ k, ReflTransGen (g.Imports false) i k → k ∈ g.taken := by
      intro k hik
      induction hik with
      | refl => exact hi
      | tail _ himports ih => exact mem_taken_of_imports ih himports
    have hless : ∀ d, TransGen (g.Imports false) k d → g.taken.idxOf d < g.taken.idxOf k := by
      intro d hkd
      induction hkd with
      | single himports => exact idxOf_taken_lt (hreached k hik) himports
      | tail hkd himports ih =>
        exact Nat.lt_trans (idxOf_taken_lt (hreached _ (hik.trans hkd.to_reflTransGen)) himports) ih
    exact Nat.lt_irrefl _ (hless k hkk)
  · rintro ⟨hi, hnot⟩
    -- Among the modules that lead into no circle imports are well-founded, so each is taken when its imports are.
    have htrans : IsTrans (Fin g.size) fun d i => TransGen (g.Imports false) i d ∧ ¬ g.LeadsIntoCircle i :=
      ⟨fun a b c hab hbc => ⟨hbc.1.trans hab.1, hbc.2⟩⟩
    have hirrefl : Std.Irrefl fun d i : Fin g.size => TransGen (g.Imports false) i d ∧ ¬ g.LeadsIntoCircle i :=
      ⟨fun a h => h.2 ⟨a, ReflTransGen.refl, h.1⟩⟩
    have hwf := Finite.wellFounded_of_trans_of_irrefl
      fun d i : Fin g.size => TransGen (g.Imports false) i d ∧ ¬ g.LeadsIntoCircle i
    have hall : ∀ i : Fin g.size, ¬ g.LeadsIntoCircle i → i.1 ∈ g.taken := by
      intro i
      induction i using hwf.induction with
      | _ i ih =>
        intro hnot
        refine (hmem i).2 ⟨i.2, fun d hd => ?_⟩
        have himports := mem_links.1 hd
        refine ih ⟨d, himports.lt.2⟩ ⟨TransGen.single himports, hnot⟩ ?_
        rintro ⟨k, hdk, hkk⟩
        exact hnot ⟨k, hdk.head himports, hkk⟩
    exact hall ⟨i, hi⟩ hnot

/-! ### The order -/

theorem idxOf_lt_idxOf_iff {l : List Nat} (h : l.Pairwise (· < ·)) (hi : i ∈ l) (hj : j ∈ l) :
    l.idxOf i < l.idxOf j ↔ i < j := by
  rw [List.pairwise_iff_getElem] at h
  have hless : ∀ a ∈ l, ∀ b ∈ l, l.idxOf a < l.idxOf b → a < b := by
    intro a ha b hb hlt
    have hget := h _ _ (List.idxOf_lt_length_of_mem ha) (List.idxOf_lt_length_of_mem hb) hlt
    rwa [List.getElem_idxOf, List.getElem_idxOf] at hget
  refine ⟨hless i hi j hj, fun hij => ?_⟩
  by_contra hge
  rcases Nat.lt_or_eq_of_le (Nat.le_of_not_lt hge) with hlt | heq
  · exact Nat.lt_asymm hij (hless j hj i hi hlt)
  · exact Nat.ne_of_lt hij ((List.idxOf_inj hj).1 heq).symm

theorem sorted_perm (g : ModuleGraph) : g.sorted.Perm (List.range g.size) := by
  obtain ⟨waiting, hsorting⟩ := g.exists_sorting_taken
  have hnodup := hsorting.nodup
  rw [List.append_nil] at hnodup
  rw [sorted_eq, List.perm_ext_iff_of_nodup ?_ List.nodup_range]
  · intro i
    rw [List.mem_append, List.mem_filter, List.mem_range]
    by_cases hi : i ∈ g.taken
    · simp [hi, (mem_taken.1 hi).1]
    · simp [hi]
  · refine List.nodup_append.2 ⟨hnodup, List.nodup_range.filter _, fun a ha b hb => ?_⟩
    rintro rfl
    simpa [ha] using (List.mem_filter.1 hb).2

/-- In an order of modules, each static import stands in front of its importer unless it depends on it in turn. -/
def InOrder (g : ModuleGraph) (order : List Nat) : Prop :=
  ∀ m d, g.Imports false m d → ¬ TransGen (g.Imports false) d m → order.idxOf d < order.idxOf m

theorem idxOf_sorted_of_mem (h : i ∈ g.taken) : g.sorted.idxOf i = g.taken.idxOf i := by
  rw [sorted_eq, List.idxOf_append_of_mem h]

theorem idxOf_sorted_of_not_mem (h : i ∉ g.taken) : g.sorted.idxOf i =
    g.taken.length + ((List.range g.size).filter (!g.taken.contains ·)).idxOf i := by
  rw [sorted_eq, List.idxOf_append_of_notMem h, Nat.add_comm]

/-- All modules are sorted, each once. They stand behind their imports exactly when those that lead into a circle have
smaller indices than what imports them. -/
theorem sorted_inOrder_iff (g : ModuleGraph) : g.sorted.Perm (List.range g.size) ∧
    (g.InOrder g.sorted ↔ ∀ m d, g.Imports false m d → ¬ TransGen (g.Imports false) d m →
      g.LeadsIntoCircle d → d < m) := by
  refine ⟨g.sorted_perm, ?_⟩
  have hleft : ∀ m d, g.Imports false m d → g.LeadsIntoCircle d →
      (g.sorted.idxOf d < g.sorted.idxOf m ↔ d < m) := by
    intro m d himports hd
    have hm : g.LeadsIntoCircle m := hd.imp fun k hk => ⟨hk.1.head himports, hk.2⟩
    have hrest : ∀ i < g.size, g.LeadsIntoCircle i →
        i ∉ g.taken ∧ i ∈ (List.range g.size).filter (!g.taken.contains ·) := by
      intro i hlt hi
      have hnot : i ∉ g.taken := fun h => (mem_taken.1 h).2 hi
      exact ⟨hnot, List.mem_filter.2 ⟨List.mem_range.2 hlt, by simpa using hnot⟩⟩
    obtain ⟨hdnot, hdmem⟩ := hrest d himports.lt.2 hd
    obtain ⟨hmnot, hmmem⟩ := hrest m himports.lt.1 hm
    rw [idxOf_sorted_of_not_mem hdnot, idxOf_sorted_of_not_mem hmnot, Nat.add_lt_add_iff_left]
    exact idxOf_lt_idxOf_iff (List.pairwise_lt_range.filter _) hdmem hmmem
  constructor
  · exact fun h m d himports hfree hd => (hleft m d himports hd).1 (h m d himports hfree)
  · intro h m d himports hfree
    by_cases hd : g.LeadsIntoCircle d
    · exact (hleft m d himports hd).2 (h m d himports hfree hd)
    · have htaken : d ∈ g.taken := mem_taken.2 ⟨himports.lt.2, hd⟩
      rw [idxOf_sorted_of_mem htaken]
      by_cases hm : m ∈ g.taken
      · rw [idxOf_sorted_of_mem hm]
        exact idxOf_taken_lt hm himports
      · rw [idxOf_sorted_of_not_mem hm]
        exact Nat.lt_add_right _ (List.idxOf_lt_length_of_mem htaken)

/-- A module that imports one which imports itself. -/
def importsCircle : ModuleGraph where
  modules :=
    [⟨"a.js", "import './b.js';", [⟨"./b.js", false, []⟩], [⟨⟨0, 16⟩, .importNames "./b.js" []⟩], []⟩,
      ⟨"b.js", "import './b.js';", [⟨"./b.js", false, []⟩], [⟨⟨0, 16⟩, .importNames "./b.js" []⟩], []⟩]
  edges := [⟨"a.js", "./b.js", "b.js", false⟩, ⟨"b.js", "./b.js", "b.js", false⟩]

theorem not_inOrder_importsCircle :
    (∀ m ∈ importsCircle.modules, (analyze m.source m.id).toOption = some m.analysis) ∧
      ¬ importsCircle.InOrder importsCircle.sorted := by
  refine ⟨by decide +kernel, fun h => ?_⟩
  have himports : importsCircle.Imports false 0 1 := ⟨_, rfl, by decide +kernel⟩
  have hsorted : importsCircle.sorted = [0, 1] := by decide +kernel
  -- Nothing imports `a.js`.
  have hfree : ¬ TransGen (importsCircle.Imports false) 1 0 := by
    rw [TransGen.tail'_iff]
    rintro ⟨i, -, m, -, hm⟩
    obtain ⟨e, he, -, -, hindex⟩ := mem_targets.1 hm
    revert hindex
    have hall : ∀ e ∈ importsCircle.edges, importsCircle.indexOf? e.target ≠ some 0 := by decide +kernel
    exact hall e he
  exact absurd (h 0 1 himports hfree) (by rw [hsorted]; decide)

end ModuleGraph

end LiveNotes.Bundle
