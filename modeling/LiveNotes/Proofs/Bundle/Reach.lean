import LiveNotes.Bundle.Graph
import Mathlib.Data.List.Nodup
import Mathlib.Logic.Relation

/-! Looking up modules and imports in the graph of a bundle, where an id stands for the index of a
module that has it and a specifier for what one of the imports of its module was resolved to; and the
modules of a chunk. The walk that collects these comes to its end with all modules that imports lead
to from its start, without those where another chunk starts, and each of them once. -/

namespace LiveNotes.Bundle

theorem mem_dropRepeats {l : List Nat} {k : Nat} : k ∈ dropRepeats l ↔ k ∈ l := by
  induction l with
  | nil => rfl
  | cons a rest ih =>
    rw [dropRepeats]
    split
    · next b more hrest =>
      rw [hrest] at ih
      by_cases hab : a = b
      · rw [if_pos hab, ih, List.mem_cons, ← ih, List.mem_cons, hab]
        exact ⟨Or.inr, fun h => h.elim Or.inl id⟩
      · rw [if_neg hab, List.mem_cons, ih, ← List.mem_cons]
    · next hrest =>
      rw [hrest] at ih
      rw [List.mem_cons, List.mem_cons, ih]

theorem length_dropRepeats_le (l : List Nat) : (dropRepeats l).length ≤ l.length := by
  induction l with
  | nil => exact Nat.le_refl _
  | cons a rest ih =>
    rw [dropRepeats]
    split
    · next b more hrest =>
      rw [hrest] at ih
      split
      · exact Nat.le_succ_of_le ih
      · exact Nat.succ_le_succ ih
    · exact Nat.succ_le_succ (Nat.zero_le _)

namespace ModuleGraph

variable {g : ModuleGraph} {m : Module} {id importer specifier : String} {dynamic : Bool} {i k : Nat}

/-- The ids of the modules by their index. -/
def ids (g : ModuleGraph) : List String := g.modules.map (·.id)

@[simp] theorem ids_add (g : ModuleGraph) (m : Module) : (g.add m).ids = g.ids ++ [m.id] := List.map_append

@[simp] theorem edges_add (g : ModuleGraph) (m : Module) : (g.add m).edges = g.edges := rfl

theorem mem_ids_of_get? (h : g.get? i = some m) : m.id ∈ g.ids := List.mem_map_of_mem (List.mem_of_getElem? h)

theorem lt_size_of_get? (h : g.get? i = some m) : i < g.size := (List.getElem?_eq_some_iff.1 h).1

theorem exists_get? (h : i < g.size) : ∃ m, g.get? i = some m := ⟨_, List.getElem?_eq_getElem h⟩

theorem get?_of_indexOf? (h : g.indexOf? id = some k) : ∃ m, g.get? k = some m ∧ m.id = id := by
  obtain ⟨p, hp, rfl⟩ := Option.map_eq_some_iff.1 h
  obtain ⟨hmem, hid⟩ := List.mem_filter.1 (List.mem_of_getLast? hp)
  exact ⟨p.1, (List.mem_zipIdx_iff_getElem?.1 hmem), by simpa using hid⟩

theorem lt_size_of_indexOf? (h : g.indexOf? id = some k) : k < g.size := by
  obtain ⟨m, hm, -⟩ := get?_of_indexOf? h
  exact lt_size_of_get? hm

theorem exists_indexOf? (h : id ∈ g.ids) : ∃ k, g.indexOf? id = some k := by
  obtain ⟨m, hm, rfl⟩ := List.mem_map.1 h
  obtain ⟨i, hi⟩ := List.getElem?_of_mem hm
  have hmem : (m, i) ∈ g.modules.zipIdx.filter fun p => p.1.id == m.id :=
    List.mem_filter.2 ⟨List.mem_zipIdx_iff_getElem?.2 hi, by simp⟩
  cases hlast : (g.modules.zipIdx.filter fun p => p.1.id == m.id).getLast? with
  | none => exact absurd hmem (by rw [List.getLast?_eq_none_iff.1 hlast]; exact List.not_mem_nil)
  | some p => exact ⟨p.2, by rw [indexOf?, hlast]; rfl⟩

theorem indexOf?_of_get? (hnodup : g.ids.Nodup) (h : g.get? k = some m) : g.indexOf? m.id = some k := by
  obtain ⟨k', hk'⟩ := exists_indexOf? (mem_ids_of_get? h)
  obtain ⟨m', hm', hid⟩ := get?_of_indexOf? hk'
  have heq : g.ids[k']? = g.ids[k]? := by
    rw [ids, List.getElem?_map, List.getElem?_map]
    exact (congrArg (Option.map _) hm').trans ((congrArg some hid).trans (congrArg (Option.map _) h).symm)
  have hlt : k' < g.ids.length := (List.length_map ..).symm ▸ lt_size_of_get? hm'
  rw [hk', (List.getElem?_inj hlt hnodup).1 heq]

theorem exists_edge_of_resolve? (h : g.resolve? importer specifier = some k) :
    ∃ e ∈ g.edges, e.importer = importer ∧ e.specifier = specifier ∧ g.indexOf? e.target = some k := by
  unfold resolve? at h
  split at h
  · obtain ⟨e, he, hk⟩ := List.exists_of_findSome?_eq_some h
    obtain ⟨hmem, hof⟩ := List.mem_filter.1 (List.mem_reverse.1 he)
    obtain ⟨hi, hs⟩ := Bool.and_eq_true_iff.1 hof
    exact ⟨e, hmem, eq_of_beq hi, eq_of_beq hs, hk⟩
  · contradiction

theorem lt_size_of_resolve? (h : g.resolve? importer specifier = some k) : k < g.size := by
  obtain ⟨e, -, -, -, hk⟩ := exists_edge_of_resolve? h
  exact lt_size_of_indexOf? hk

theorem mem_targets : k ∈ g.targets dynamic m ↔
    ∃ e ∈ g.edges, e.importer = m.id ∧ e.dynamic = dynamic ∧ g.indexOf? e.target = some k := by
  rw [targets, mem_dropRepeats, List.mem_filterMap]
  constructor
  · rintro ⟨e, he, hk⟩
    obtain ⟨hmem, hof⟩ := List.mem_filter.1 he
    obtain ⟨hi, hd⟩ := Bool.and_eq_true_iff.1 hof
    exact ⟨e, hmem, eq_of_beq hi, eq_of_beq hd, hk⟩
  · rintro ⟨e, hmem, hi, hd, hk⟩
    exact ⟨e, List.mem_filter.2 ⟨hmem, by simp [hi, hd]⟩, hk⟩

/-- The module `i` imports the module `k`: when it is loaded or, if `dynamic`, when it makes a call. -/
def Imports (g : ModuleGraph) (dynamic : Bool) (i k : Nat) : Prop :=
  ∃ m, g.get? i = some m ∧ k ∈ g.targets dynamic m

theorem Imports.lt (h : g.Imports dynamic i k) : i < g.size ∧ k < g.size := by
  obtain ⟨m, hm, hk⟩ := h
  obtain ⟨e, -, -, -, hindex⟩ := mem_targets.1 hk
  exact ⟨lt_size_of_get? hm, lt_size_of_indexOf? hindex⟩

theorem mem_splitPoints : k ∈ g.splitPoints ↔ ∃ i, g.Imports true i k := by
  rw [splitPoints, List.mem_filter, List.mem_range, List.contains_iff_mem, List.mem_flatMap]
  constructor
  · rintro ⟨-, m, hm, hk⟩
    obtain ⟨i, hi⟩ := List.getElem?_of_mem hm
    exact ⟨i, m, hi, hk⟩
  · rintro ⟨i, m, hm, hk⟩
    exact ⟨(Imports.lt ⟨m, hm, hk⟩).2, m, List.mem_of_getElem? hm, hk⟩

theorem length_targets_le (g : ModuleGraph) (dynamic : Bool) (m : Module) :
    (g.targets dynamic m).length ≤ g.edges.length :=
  Nat.le_trans (length_dropRepeats_le _)
    (Nat.le_trans (List.length_filterMap_le ..) (List.length_filter_le ..))

end ModuleGraph

end LiveNotes.Bundle

namespace LiveNotes.Bundle

open Relation

/-- The indices below `n` that were not visited. -/
def unvisited (n : Nat) (visited : List Nat) : List Nat := (List.range n).filter (· ∉ visited)

theorem unvisited_cons (n i : Nat) (visited : List Nat) :
    unvisited n (i :: visited) = (unvisited n visited).filter (· ≠ i) := by
  rw [unvisited, unvisited, List.filter_filter]
  refine List.filter_congr fun k _ => ?_
  simp only [List.mem_cons, not_or, Bool.decide_and]

theorem length_unvisited_le (n : Nat) {visited visited' : List Nat} (h : visited ⊆ visited') :
    (unvisited n visited').length ≤ (unvisited n visited).length := by
  have hsub : (unvisited n visited').Sublist (unvisited n visited) := by
    refine List.monotone_filter_right _ fun k hk => ?_
    exact decide_eq_true fun hmem => of_decide_eq_true hk (h hmem)
  exact hsub.length_le

theorem length_unvisited_cons_lt {n i : Nat} {visited : List Nat} (hi : i < n) (hnew : i ∉ visited) :
    (unvisited n (i :: visited)).length < (unvisited n visited).length := by
  have hmem : i ∈ unvisited n visited :=
    List.mem_filter.2 ⟨List.mem_range.2 hi, decide_eq_true hnew⟩
  rw [unvisited_cons]
  exact List.length_filter_lt_length_iff_exists.2 ⟨i, hmem, by simp⟩

theorem mem_of_length_unvisited {n i : Nat} {visited : List Nat} (h : (unvisited n visited).length ≤ 0)
    (hi : i < n) : i ∈ visited := by
  by_contra hnew
  have hmem : i ∈ unvisited n visited :=
    List.mem_filter.2 ⟨List.mem_range.2 hi, decide_eq_true hnew⟩
  exact absurd (List.length_pos_of_mem hmem) (Nat.not_lt.2 h)

namespace ModuleGraph

variable {g : ModuleGraph} {splits visited stack : List Nat} {dynamic : Bool} {start fuel i k : Nat}

/-- A walk from `start` goes from a module to one that is loaded with it, unless a chunk of its own starts
there. -/
def Steps (g : ModuleGraph) (splits : List Nat) (dynamic : Bool) (start i k : Nat) : Prop :=
  k ∈ g.loadedWith dynamic i ∧ (k = start ∨ k ∉ splits)

theorem length_loadedWith_le (g : ModuleGraph) (dynamic : Bool) (i : Nat) :
    (g.loadedWith dynamic i).length ≤ 2 * g.edges.length := by
  unfold loadedWith
  split
  · next m _ =>
    have hstatic := g.length_targets_le false m
    have hdynamic := g.length_targets_le true m
    rw [List.length_append]
    split
    · exact (Nat.two_mul _).symm ▸ Nat.add_le_add hstatic hdynamic
    · exact Nat.le_trans hstatic (Nat.le_mul_of_pos_left _ (Nat.zero_lt_two))
  · exact Nat.zero_le _

theorem loadedWith_of_size_le (h : g.size ≤ i) : g.loadedWith dynamic i = [] := by
  have hnone : g.get? i = none := List.getElem?_eq_none h
  rw [loadedWith, hnone]

theorem mem_loadedWith :
    k ∈ g.loadedWith dynamic i ↔ g.Imports false i k ∨ dynamic = true ∧ g.Imports true i k := by
  unfold loadedWith Imports
  cases g.get? i with
  | none => simp
  | some m => cases dynamic <;> simp [dependencies, dynamicDependencies]

theorem reach_nodup (g : ModuleGraph) (splits : List Nat) (dynamic : Bool) (start fuel : Nat)
    (visited stack : List Nat) :
    (g.reach splits dynamic start fuel visited stack).Nodup ∧
      ∀ i ∈ g.reach splits dynamic start fuel visited stack, i ∉ visited := by
  fun_induction reach g splits dynamic start fuel visited stack with
  | case1 => exact ⟨List.nodup_nil, fun _ h => absurd h List.not_mem_nil⟩
  | case2 => exact ⟨List.nodup_nil, fun _ h => absurd h List.not_mem_nil⟩
  | case3 _ _ _ _ _ ih => exact ih
  | case4 _ _ _ _ _ _ ih => exact ⟨ih.1, fun k hk hmem => ih.2 k hk (List.mem_cons_of_mem _ hmem)⟩
  | case5 fuel visited i stack hnew _ next ih =>
    refine ⟨List.nodup_cons.2 ⟨fun h => ih.2 i h List.mem_cons_self, ih.1⟩, ?_⟩
    intro k hk hmem
    rcases List.mem_cons.1 hk with rfl | hk
    · exact hnew (List.contains_iff_mem.2 hmem)
    · exact ih.2 k hk (List.mem_cons_of_mem _ hmem)

/-- Whatever holds on the stack and is kept by the steps holds of all that is found. -/
theorem reach_of_steps {P : Nat → Prop} (hstep : ∀ i k, P i → g.Steps splits dynamic start i k → P k)
    (hstack : ∀ i ∈ stack, i = start ∨ i ∉ splits → P i) :
    ∀ i ∈ g.reach splits dynamic start fuel visited stack, P i := by
  fun_induction reach g splits dynamic start fuel visited stack with
  | case1 => exact fun _ h => absurd h List.not_mem_nil
  | case2 => exact fun _ h => absurd h List.not_mem_nil
  | case3 _ _ _ _ _ ih => exact ih fun k hk => hstack k (List.mem_cons_of_mem _ hk)
  | case4 _ _ _ _ _ _ ih => exact ih fun k hk => hstack k (List.mem_cons_of_mem _ hk)
  | case5 fuel visited i stack hnew hsplit next ih =>
    have hi : P i := hstack i List.mem_cons_self (by simpa [or_iff_not_imp_left] using hsplit)
    have hrest := ih fun k hk hgo => by
      rcases List.mem_append.1 hk with hnext | hk
      · exact hstep i k hi ⟨(List.mem_filter.1 hnext).1, hgo⟩
      · exact hstack k (List.mem_cons_of_mem _ hk) hgo
    intro k hk
    rcases List.mem_cons.1 hk with rfl | hk
    · exact hi
    · exact hrest k hk

/-- A walk with enough steps leaves nothing out: neither of what is on the stack nor of what is loaded with
what it finds. The bound counts the stack, and for each module that is left what it may add to it. -/
theorem reach_closed (splits : List Nat) (dynamic : Bool) (start : Nat)
    (hfuel : stack.length + (unvisited g.size visited).length * (2 * (g.edges.length + 1)) ≤ fuel) :
    (∀ i ∈ stack, i = start ∨ i ∉ splits →
        i ∈ visited ∨ i ∈ g.reach splits dynamic start fuel visited stack) ∧
      ∀ i ∈ g.reach splits dynamic start fuel visited stack, ∀ k, g.Steps splits dynamic start i k →
        k ∈ visited ∨ k ∈ g.reach splits dynamic start fuel visited stack := by
  fun_induction reach g splits dynamic start fuel visited stack with
  | case1 visited stack =>
    have hnil : stack = [] := List.eq_nil_of_length_eq_zero (by omega)
    exact ⟨by simp [hnil], fun _ h => absurd h List.not_mem_nil⟩
  | case2 => exact ⟨fun _ h => absurd h List.not_mem_nil, fun _ h => absurd h List.not_mem_nil⟩
  | case3 fuel visited i stack hseen ih =>
    rw [List.length_cons] at hfuel
    obtain ⟨hstack, hsteps⟩ := ih (by omega)
    refine ⟨fun k hk hgo => ?_, hsteps⟩
    rcases List.mem_cons.1 hk with rfl | hk
    · exact Or.inl (List.contains_iff_mem.1 hseen)
    · exact hstack k hk hgo
  | case4 fuel visited i stack hnew hsplit ih =>
    have hle := Nat.mul_le_mul_right (2 * (g.edges.length + 1)) (length_unvisited_le g.size (List.subset_cons_self i visited))
    rw [List.length_cons] at hfuel
    obtain ⟨hstack, hsteps⟩ := ih (by omega)
    obtain ⟨hne, hmem⟩ : i ≠ start ∧ i ∈ splits := by simpa using hsplit
    have hother : ∀ k, k = start ∨ k ∉ splits → k ∈ i :: visited → k ∈ visited := by
      rintro k hgo hk
      rcases List.mem_cons.1 hk with rfl | hk
      · exact absurd hgo (by simp [hne, hmem])
      · exact hk
    refine ⟨fun k hk hgo => ?_, fun j hj k hstep => ?_⟩
    · rcases List.mem_cons.1 hk with rfl | hk
      · exact absurd hgo (by simp [hne, hmem])
      · exact (hstack k hk hgo).imp_left (hother k hgo)
    · exact (hsteps j hj k hstep).imp_left (hother k hstep.2)
  | case5 fuel visited i stack hnew hsplit next ih =>
    have hnext : next.length ≤ (g.loadedWith dynamic i).length := List.length_filter_le ..
    have hbound : next.length + (unvisited g.size (i :: visited)).length * (2 * (g.edges.length + 1)) ≤
        (unvisited g.size visited).length * (2 * (g.edges.length + 1)) := by
      by_cases hi : i < g.size
      · have hlt := length_unvisited_cons_lt hi (fun h => hnew (List.contains_iff_mem.2 h))
        have hmul := Nat.mul_le_mul_right (2 * (g.edges.length + 1)) (Nat.succ_le_of_lt hlt)
        have hlength := g.length_loadedWith_le dynamic i
        rw [Nat.succ_mul] at hmul
        omega
      · rw [loadedWith_of_size_le (Nat.le_of_not_lt hi)] at hnext
        have hle := Nat.mul_le_mul_right (2 * (g.edges.length + 1)) (length_unvisited_le g.size (List.subset_cons_self i visited))
        rw [List.length_nil] at hnext
        omega
    rw [List.length_cons] at hfuel
    obtain ⟨hstack, hsteps⟩ := ih (by rw [List.length_append]; omega)
    have hcons : ∀ k l, k ∈ i :: visited ∨ k ∈ l → k ∈ visited ∨ k ∈ i :: l := by
      intro k l hk
      simp only [List.mem_cons] at hk ⊢
      tauto
    refine ⟨fun k hk hgo => ?_, fun j hj k hstep => ?_⟩
    · rcases List.mem_cons.1 hk with rfl | hk
      · exact Or.inr List.mem_cons_self
      · exact hcons k _ (hstack k (List.mem_append_right _ hk) hgo)
    · rcases List.mem_cons.1 hj with rfl | hj
      · by_cases hk : k ∈ j :: visited
        · exact hcons k _ (Or.inl hk)
        · have hmem : k ∈ next := List.mem_filter.2 ⟨hstep.1, by simpa using hk⟩
          exact hcons k _ (hstack k (List.mem_append_left _ hmem) hstep.2)
      · exact hcons k _ (hsteps j hj k hstep)

theorem nodup_reachFrom (g : ModuleGraph) (splits : List Nat) (dynamic : Bool) (start : Nat) :
    (g.reachFrom splits dynamic start).Nodup := (g.reach_nodup ..).1

theorem mem_reachFrom : k ∈ g.reachFrom splits dynamic start ↔
    ReflTransGen (g.Steps splits dynamic start) start k := by
  have hfuel : [start].length + (unvisited g.size []).length * (2 * (g.edges.length + 1)) ≤ g.reachBound := by
    have hle : (unvisited g.size []).length ≤ g.modules.length :=
      Nat.le_trans (List.length_filter_le ..) (Nat.le_of_eq List.length_range)
    have hmul := Nat.mul_le_mul_right (2 * (g.edges.length + 1)) hle
    rw [reachBound, List.length_singleton]
    rw [Nat.mul_comm 2 g.modules.length, Nat.mul_assoc]
    exact Nat.add_le_add_left hmul 1
  obtain ⟨hstack, hsteps⟩ := reach_closed splits dynamic start hfuel
  constructor
  · refine reach_of_steps (fun i k hi hstep => hi.tail hstep) ?_ k
    intro i hi _
    rw [List.mem_singleton.1 hi]
  · intro hreach
    induction hreach with
    | refl =>
      exact (hstack start List.mem_cons_self (Or.inl rfl)).resolve_left List.not_mem_nil
    | tail _ hstep ih => exact (hsteps _ ih _ hstep).resolve_left List.not_mem_nil

end ModuleGraph

end LiveNotes.Bundle
