import LiveNotes.Proofs.Bundle.Gather
import LiveNotes.Proofs.Bundle.Link
import LiveNotes.Proofs.Bundle.Reach

/-! A bundle is closed and complete. Its chunk has one wrapper for each module that the entry needs and no
other, and what is written for an item never asks for a module without a wrapper. -/

namespace LiveNotes

namespace Bundle

/-- What the code of a chunk with the given modules asks for: the exports of its entry and, in place of an
item that names something, those of a module of the chunk or of an external module. -/
structure Asks (g : ModuleGraph) (modules : List Nat) (index : Nat) : Prop where
  entry : index ∈ modules
  edits : ∀ i ∈ modules, ∀ m, g.get? i = some m → ∀ externals, ∀ e ∈ (g.link externals m).edits,
    ∃ item ∈ m.analysis.items, ∃ target sources, e ∈ item.edits target sources ∧
      ((∃ k ∈ modules, target = requireText k) ∨
        (∃ n, target = externalName n ∧ item.kind.isDynamic = false) ∨ item.kind.specifier? = none)

/-- A bundle of the modules that were gathered for the module `root`, which has the given index. -/
structure Complete (plugins : List Plugin) (root : String) (g : ModuleGraph) (modules : List Nat)
    (index : Nat) (b : Bundle) : Prop where
  indices : modules.Perm (List.range g.size)
  ids : b.modules.Perm g.ids
  nodup : b.modules.Nodup
  needed : ∀ id, id ∈ b.modules ↔ Gathering.Needed plugins root id
  entry : g.indexOf? root = some index
  code : ∃ wrappers, List.Forall₂ g.Wraps modules wrappers ∧ b.code =
    String.join (g.importTexts modules) ++ chunkHead ++ String.join wrappers ++ g.exportsText index

end Bundle

/-! ### All modules are in the chunk -/

namespace Gathered

open LiveNotes.Bundle Relation

variable {plugins : List Plugin} {root : String} {index : Nat} {s : Gathering}

/-- An import that is answered by a module is one of the links that the graph has from its importer. -/
theorem leads (h : Gathered plugins root s) {m : Module} {i : Import} {id : String}
    (hm : m ∈ s.graph.modules) (hi : i ∈ m.analysis.imports)
    (hfound : Plugins.resolve plugins i.specifier (some m.id) = .ok (some ⟨id, false⟩)) :
    ∃ j k, s.graph.indexOf? m.id = some j ∧ s.graph.indexOf? id = some k ∧ s.graph.Imports i.dynamic j k := by
  obtain ⟨j, hj⟩ := List.getElem?_of_mem hm
  obtain ⟨found, hfound', hkept⟩ := h.answered m hm i hi
  obtain rfl := Except.ok.inj (hfound.symm.trans hfound')
  obtain ⟨k, hk⟩ := ModuleGraph.exists_indexOf? (h.edge _ hkept).2
  exact ⟨j, k, ModuleGraph.indexOf?_of_get? h.nodup hj, hk, m, hj,
    ModuleGraph.mem_targets.2 ⟨_, hkept, rfl, rfl, hk⟩⟩

/-- All modules are found when each import is followed or leads to the entry, from which the walk starts. -/
theorem reaches (h : Gathered plugins root s) (hindex : s.graph.indexOf? root = some index)
    {splits : List Nat} {dynamic : Bool}
    (hsteps : ∀ d i k, s.graph.Imports d i k → s.graph.Steps splits dynamic index i k ∨ k = index)
    {k : Nat} (hk : k < s.graph.size) :
    k ∈ s.graph.reachFrom splits dynamic index := by
  have hneeded : ∀ id, Gathering.Needed plugins root id → ∀ k, s.graph.indexOf? id = some k →
      ReflTransGen (s.graph.Steps splits dynamic index) index k := by
    intro id hid
    induction hid with
    | root =>
      intro k hk
      rw [Option.some.inj (hk.symm.trans hindex)]
    | @imported m i id hm hloads hi hfound ih =>
      intro k hk
      obtain ⟨m', hm', hid⟩ := List.mem_map.1 ((h.mem_ids_iff m.id).2 hm)
      obtain rfl := (h.loads m' hm').eq hloads hid
      obtain ⟨j, k', hindex', hk', himports⟩ := h.leads hm' hi hfound
      obtain rfl := Option.some.inj (hk.symm.trans hk')
      rcases hsteps i.dynamic j k himports with hstep | rfl
      · exact (ih j hindex').tail hstep
      · exact ReflTransGen.refl
  obtain ⟨m, hm⟩ := ModuleGraph.exists_get? hk
  have hid : Gathering.Needed plugins root m.id := (h.mem_ids_iff m.id).1 (ModuleGraph.mem_ids_of_get? hm)
  exact ModuleGraph.mem_reachFrom.2 (hneeded m.id hid k (ModuleGraph.indexOf?_of_get? h.nodup hm))

end Gathered

namespace Bundle

open Relation

variable {plugins : List Plugin} {entry root : String} {inlineDynamic : Bool} {limit index : Nat}
  {s : Gathering} {b : Bundle}

/-- With one chunk, nothing but the entry is imported by a call unless such imports are inlined. -/
theorem eq_of_chunks {g : ModuleGraph} {main : Chunk} (h : g.chunks index false = [main]) {i k : Nat}
    (hk : g.Imports true i k) : k = index := by
  by_contra hne
  have hsplit : k ∈ g.splitPoints.filter (· != index) :=
    List.mem_filter.2 ⟨ModuleGraph.mem_splitPoints.2 ⟨i, hk⟩, by simpa using hne⟩
  obtain ⟨n, hn⟩ := List.getElem?_of_mem hsplit
  obtain ⟨m, hm⟩ := ModuleGraph.exists_get? hk.lt.2
  have hlazy := (List.cons.inj h).2
  have hnone := List.filterMap_eq_nil_iff.1 hlazy (k, n) (List.mem_zipIdx_iff_getElem?.2 hn)
  dsimp only at hnone
  rw [hm] at hnone
  contradiction

theorem perm_of_chunks (h : Gathered plugins root s) (hindex : s.graph.indexOf? root = some index)
    {main : Chunk} (hchunks : s.graph.chunks index inlineDynamic = [main]) :
    main.modules.Perm (List.range s.graph.size) := by
  have hmodules : main.modules =
      s.graph.reachFrom (if inlineDynamic then [] else s.graph.splitPoints) inlineDynamic index :=
    congrArg Chunk.modules (List.cons.inj hchunks).1.symm
  have hsteps : ∀ d i k, s.graph.Imports d i k →
      s.graph.Steps (if inlineDynamic then [] else s.graph.splitPoints) inlineDynamic index i k ∨
        k = index := by
    intro d i k hk
    cases inlineDynamic with
    | true =>
      refine Or.inl ⟨ModuleGraph.mem_loadedWith.2 ?_, Or.inr List.not_mem_nil⟩
      cases d with
      | false => exact Or.inl hk
      | true => exact Or.inr ⟨rfl, hk⟩
    | false =>
      cases d with
      | true => exact Or.inr (eq_of_chunks hchunks hk)
      | false =>
        by_cases hsplit : k ∈ s.graph.splitPoints
        · obtain ⟨i', hdynamic⟩ := ModuleGraph.mem_splitPoints.1 hsplit
          exact Or.inr (eq_of_chunks hchunks hdynamic)
        · exact Or.inl ⟨ModuleGraph.mem_loadedWith.2 (Or.inl hk), Or.inr hsplit⟩
  rw [hmodules, List.perm_ext_iff_of_nodup (ModuleGraph.nodup_reachFrom ..) List.nodup_range]
  intro k
  rw [List.mem_range]
  refine ⟨?_, h.reaches hindex hsteps⟩
  refine ModuleGraph.reach_of_steps (P := fun k => k < s.graph.size) ?_ ?_ k
  · intro i k _ hstep
    rcases ModuleGraph.mem_loadedWith.1 hstep.1 with hk | ⟨-, hk⟩
    · exact hk.lt.2
    · exact hk.lt.2
  · intro i hi _
    rw [List.mem_singleton.1 hi]
    exact ModuleGraph.lt_size_of_indexOf? hindex

/-! ### What is asked for -/

theorem asks_of_perm {g : ModuleGraph} {modules : List Nat} (h : modules.Perm (List.range g.size))
    (hindex : index < g.size) : Asks g modules index := by
  have hmem : ∀ {k : Nat}, k < g.size → k ∈ modules := fun hk => h.mem_iff.2 (List.mem_range.2 hk)
  refine ⟨hmem hindex, ?_⟩
  intro i _ m hm externals e he
  obtain ⟨item, hitem, target, sources, htarget, hedit⟩ := ModuleGraph.mem_edits_link he
  refine ⟨item, hitem, target, sources, hedit, ?_⟩
  cases htarget with
  | inner _ hk => exact Or.inl ⟨_, hmem (ModuleGraph.lt_size_of_resolve? hk), rfl⟩
  | outer n _ _ hstatic => exact Or.inr (Or.inl ⟨n, rfl, hstatic⟩)
  | nothing hnothing => exact Or.inr (Or.inr hnothing)

theorem ids_of_perm {g : ModuleGraph} {modules : List Nat} (h : modules.Perm (List.range g.size)) :
    (modules.filterMap fun i => (g.get? i).map (·.id)).Perm g.ids := by
  have hrange : (List.range g.size).filterMap (fun i => (g.get? i).map (·.id)) = g.ids := by
    have hget : ∀ l : List Module, (List.range l.length).filterMap (fun i => l[i]?.map (·.id)) =
        l.map (·.id) := by
      intro l
      induction l with
      | nil => rfl
      | cons m l ih =>
        rw [List.length_cons, List.range_succ_eq_map, List.filterMap_cons, List.filterMap_map, List.map_cons,
          ← ih]
        rfl
    exact hget g.modules
  exact hrange ▸ h.filterMap _

/-- A bundle that is not refused is complete and closed: its modules are those that its entry needs, with one
wrapper for each, and whatever its code asks for is there. -/
theorem ofEntry_closed (h : Bundle.ofEntry plugins entry inlineDynamic limit = .ok b) :
    ∃ root s index modules, entryId plugins entry = .ok root ∧
      gather plugins entry limit = .ok (s, index) ∧
      Complete plugins root s.graph modules index b ∧ Asks s.graph modules index := by
  obtain ⟨⟨s, index⟩, hgather, h⟩ := bind_eq_ok.1 h
  obtain ⟨root, hroot, hgathered, hindex⟩ := gathered_of_gather hgather
  dsimp only at h
  split at h
  · next main hchunks =>
    split at h
    · have hperm := perm_of_chunks hgathered hindex hchunks
      have hlt : ∀ i ∈ main.modules, i < s.graph.size :=
        fun i hi => List.mem_range.1 (hperm.mem_iff.1 hi)
      obtain ⟨wrappers, hwraps, hcode⟩ := ModuleGraph.chunkText_eq hlt index
      have hids := ids_of_perm hperm
      obtain rfl := Except.ok.inj h
      refine ⟨root, s, index, main.modules, hroot, hgather, ?_, ?_⟩
      · exact ⟨hperm, hids, hids.nodup_iff.2 hgathered.nodup,
          fun id => hids.mem_iff.trans (hgathered.mem_ids_iff id), hindex, wrappers, hwraps, hcode⟩
      · exact asks_of_perm hperm (ModuleGraph.lt_size_of_indexOf? hindex)
    · contradiction
  · contradiction

/-- A plugin for the modules of a table; what is not in it is external. -/
def ofTable (texts : List (String × String)) : Plugin where
  name := "table"
  resolve specifier _ := .ok (some ⟨specifier, (texts.lookup specifier).isNone⟩)
  load id := .ok (texts.lookup id)

/-- Two modules that import each other. -/
def circle : Plugin := ofTable [("a", "export * from 'b';"), ("b", "import x from 'a';")]

theorem ofEntry_closed_circle :
    ∃ b, Bundle.ofEntry [circle] "a" false 2 = .ok b ∧ b.modules = ["a", "b"] ∧
      ∃ root, ∃ s : Gathering, ∃ index modules, entryId [circle] "a" = .ok root ∧
        gather [circle] "a" 2 = .ok (s, index) ∧ Complete [circle] root s.graph modules index b ∧
        Asks s.graph modules index := by
  have hmodules : (Bundle.ofEntry [circle] "a" false 2).toOption.map (·.modules) = some ["a", "b"] := by
    decide +kernel
  cases h : Bundle.ofEntry [circle] "a" false 2 with
  | error e =>
    rw [h] at hmodules
    contradiction
  | ok b =>
    rw [h] at hmodules
    exact ⟨b, rfl, Option.some.inj hmodules, ofEntry_closed h⟩

end Bundle

end LiveNotes
