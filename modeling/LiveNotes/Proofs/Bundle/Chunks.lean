import LiveNotes.Proofs.Bundle.Reach

/-! How the modules of a bundle are divided into chunks. Every module that the entry leads to is in a chunk,
and a chunk holds what its start leads to by static imports, up to where other chunks start that are loaded
lazily. The entry stops no walk but its own, so a chunk that imports the entry holds it once more. -/

namespace LiveNotes.Bundle

open Relation

namespace ModuleGraph

variable {g : ModuleGraph} {entry start i k n : Nat} {inlineDynamic : Bool} {c : Chunk}

/-- Static imports lead to a module from `start`, without passing another one where `stops` ends the way. -/
def Within (g : ModuleGraph) (stops : Nat → Prop) (start : Nat) : Nat → Prop :=
  ReflTransGen (fun i k => g.Imports false i k ∧ (k = start ∨ ¬ stops k)) start

/-- Imports of any kind lead to a module from `start`. -/
def LeadsTo (g : ModuleGraph) (start : Nat) : Nat → Prop :=
  ReflTransGen (fun i k => ∃ dynamic, g.Imports dynamic i k) start

/-- Chunks for an entry, one that starts with it and one for each of the modules `others`, where `holds` says
which modules belong to a chunk. -/
structure Divides (g : ModuleGraph) (entry : Nat) (others : Nat → Prop) (holds : Chunk → Nat → Prop)
    (chunks : List Chunk) : Prop where
  starts : ∃ rest, chunks.map (·.entry) = entry :: rest ∧ rest.Nodup ∧ ∀ k, k ∈ rest ↔ others k
  id : ∀ n (c : Chunk), chunks[n]? = some c → c.id = n
  isEntry : ∀ n (c : Chunk), chunks[n]? = some c → (c.isEntry = true ↔ n = 0)
  nodup : ∀ c ∈ chunks, c.modules.Nodup
  mem_iff : ∀ c ∈ chunks, ∀ k, k ∈ c.modules ↔ holds c k
  covers : ∀ k, g.LeadsTo entry k → ∃ c ∈ chunks, k ∈ c.modules

/-- A module other than the entry that calls import. -/
def IsSplit (g : ModuleGraph) (entry k : Nat) : Prop := k ≠ entry ∧ ∃ i, g.Imports true i k

/-- A chunk that is loaded lazily starts with the module. -/
def StartsLazily (chunks : List Chunk) (k : Nat) : Prop := ∃ c ∈ chunks, c.isEntry = false ∧ c.entry = k

/-! ### The list of chunks -/

/-- Where the chunks for `entry` start but for the main one. -/
def lazyStarts (g : ModuleGraph) (entry : Nat) : List Nat := g.splitPoints.filter (· != entry)

/-- The chunk for a start that stands in the given place. -/
def lazyChunk (g : ModuleGraph) (starts : List Nat) (p : Nat × Nat) : Chunk :=
  ⟨p.2 + 1, chunkName ((g.get? p.1).elim "" (·.id)), g.reachFrom starts false p.1, p.1, false, []⟩

/-- The main chunk beside chunks for `starts`. -/
def mainChunk (g : ModuleGraph) (entry : Nat) (starts : List Nat) : Chunk :=
  ⟨0, "main", g.reachFrom g.splitPoints false entry, entry, true, (List.range starts.length).map (· + 1)⟩

theorem mem_lazyStarts : k ∈ g.lazyStarts entry ↔ g.IsSplit entry k := by
  rw [lazyStarts, List.mem_filter, mem_splitPoints, IsSplit, bne_iff_ne, and_comm]

theorem nodup_lazyStarts (g : ModuleGraph) (entry : Nat) : (g.lazyStarts entry).Nodup :=
  (List.nodup_range.filter _).filter _

theorem chunks_inline (g : ModuleGraph) (entry : Nat) :
    g.chunks entry true = [⟨0, "main", g.reachFrom [] true entry, entry, true, []⟩] := rfl

theorem chunks_split (g : ModuleGraph) (entry : Nat) :
    g.chunks entry false = g.mainChunk entry (g.lazyStarts entry) ::
      (g.lazyStarts entry).zipIdx.map (g.lazyChunk (g.lazyStarts entry)) := by
  have hlazy : ((g.lazyStarts entry).zipIdx.filterMap fun p => (g.get? p.1).map fun m =>
      (⟨p.2 + 1, chunkName m.id, g.reachFrom (g.lazyStarts entry) false p.1, p.1, false, []⟩ : Chunk)) =
      (g.lazyStarts entry).zipIdx.map (g.lazyChunk (g.lazyStarts entry)) := by
    rw [← List.filterMap_eq_map]
    refine List.filterMap_congr fun p hp => ?_
    obtain ⟨-, i, hi⟩ := mem_lazyStarts.1 (List.mem_of_getElem? (List.mem_zipIdx_iff_getElem?.1 hp))
    obtain ⟨m, hm⟩ := exists_get? hi.lt.2
    simp [lazyChunk, hm]
  have hids : ((g.lazyStarts entry).zipIdx.map (g.lazyChunk (g.lazyStarts entry))).map (·.id) =
      (List.range (g.lazyStarts entry).length).map (· + 1) := by
    rw [List.map_map, List.range_eq_range', ← List.zipIdx_map_snd 0 (g.lazyStarts entry), List.map_map]
    rfl
  rw [mainChunk, ← hids, ← hlazy]
  rfl

theorem mem_chunks_split : c ∈ g.chunks entry false ↔ c = g.mainChunk entry (g.lazyStarts entry) ∨
    ∃ n k, (g.lazyStarts entry)[n]? = some k ∧ c = g.lazyChunk (g.lazyStarts entry) (k, n) := by
  rw [chunks_split, List.mem_cons, List.mem_map]
  refine or_congr_right ⟨?_, ?_⟩
  · rintro ⟨⟨k, n⟩, hp, rfl⟩
    exact ⟨n, k, List.mem_zipIdx_iff_getElem?.1 hp, rfl⟩
  · rintro ⟨n, k, hk, rfl⟩
    exact ⟨(k, n), List.mem_zipIdx_iff_getElem?.2 hk, rfl⟩

theorem startsLazily_chunks : StartsLazily (g.chunks entry false) k ↔ k ∈ g.lazyStarts entry := by
  constructor
  · rintro ⟨c, hc, hlazy, rfl⟩
    rcases mem_chunks_split.1 hc with rfl | ⟨n, k, hk, rfl⟩
    · contradiction
    · exact List.mem_of_getElem? hk
  · intro hk
    obtain ⟨n, hn⟩ := List.getElem?_of_mem hk
    exact ⟨_, mem_chunks_split.2 (Or.inr ⟨n, k, hn, rfl⟩), rfl, rfl⟩

/-! ### What a chunk holds -/

theorem within_congr {stops stops' : Nat → Prop} (h : ∀ k, k ≠ start → (stops k ↔ stops' k)) :
    g.Within stops start k ↔ g.Within stops' start k := by
  have hstep : (fun i k => g.Imports false i k ∧ (k = start ∨ ¬ stops k)) =
      fun i k => g.Imports false i k ∧ (k = start ∨ ¬ stops' k) := by
    funext i k
    by_cases hk : k = start
    · simp [hk]
    · simp [hk, h k hk]
  rw [Within, Within, hstep]

theorem mem_reachFrom_static {splits : List Nat} :
    k ∈ g.reachFrom splits false start ↔ g.Within (· ∈ splits) start k := by
  have hstep : g.Steps splits false start = fun i k => g.Imports false i k ∧ (k = start ∨ k ∉ splits) := by
    funext i k
    simp [Steps, mem_loadedWith]
  rw [mem_reachFrom, hstep, Within]

theorem mem_reachFrom_all : k ∈ g.reachFrom [] true start ↔ g.LeadsTo start k := by
  have hstep : g.Steps [] true start = fun i k => ∃ dynamic, g.Imports dynamic i k := by
    funext i k
    simp [Steps, mem_loadedWith]
  rw [mem_reachFrom, hstep, LeadsTo]

theorem mem_modules_iff (hc : c ∈ g.chunks entry false) :
    k ∈ c.modules ↔ g.Within (StartsLazily (g.chunks entry false)) c.entry k := by
  rcases mem_chunks_split.1 hc with rfl | ⟨n, j, hj, rfl⟩
  · refine mem_reachFrom_static.trans (within_congr fun k hk => ?_)
    rw [startsLazily_chunks, mem_lazyStarts, mem_splitPoints, IsSplit, and_iff_right hk]
  · exact mem_reachFrom_static.trans (within_congr fun k _ => startsLazily_chunks.symm)

theorem entry_mem_modules (hc : c ∈ g.chunks entry false) : c.entry ∈ c.modules :=
  (mem_modules_iff hc).2 ReflTransGen.refl

theorem exists_chunk_of_dynamic (entry : Nat) (h : g.Imports true i k) : ∃ c ∈ g.chunks entry false, c.entry = k := by
  by_cases hk : k = entry
  · exact ⟨_, mem_chunks_split.2 (Or.inl rfl), hk.symm⟩
  · obtain ⟨c, hc, -, hentry⟩ := startsLazily_chunks.2 (mem_lazyStarts.2 ⟨hk, i, h⟩)
    exact ⟨c, hc, hentry⟩

/-- The chunks miss no module that the entry leads to: a static import leads to a module of the same chunk or to
where another one starts, and a call to where one starts. -/
theorem exists_chunk_of_leadsTo (h : g.LeadsTo entry k) : ∃ c ∈ g.chunks entry false, k ∈ c.modules := by
  induction h with
  | refl => exact ⟨_, mem_chunks_split.2 (Or.inl rfl), entry_mem_modules (mem_chunks_split.2 (Or.inl rfl))⟩
  | @tail i k _ himports ih =>
    obtain ⟨c, hc, hi⟩ := ih
    obtain ⟨dynamic, himports⟩ := himports
    have hstart : (∃ c ∈ g.chunks entry false, c.entry = k) → ∃ c ∈ g.chunks entry false, k ∈ c.modules := by
      rintro ⟨c, hc, rfl⟩
      exact ⟨c, hc, entry_mem_modules hc⟩
    cases dynamic with
    | true => exact hstart (exists_chunk_of_dynamic entry himports)
    | false =>
      by_cases hlazy : StartsLazily (g.chunks entry false) k
      · obtain ⟨c, hc, -, hentry⟩ := hlazy
        exact hstart ⟨c, hc, hentry⟩
      · exact ⟨c, hc, (mem_modules_iff hc).2 (((mem_modules_iff hc).1 hi).tail ⟨himports, Or.inr hlazy⟩)⟩

theorem divides_inline (g : ModuleGraph) (entry : Nat) :
    g.Divides entry (fun _ => False) (fun _ => g.LeadsTo entry) (g.chunks entry true) := by
  rw [chunks_inline]
  have hget : ∀ n (c : Chunk), [(⟨0, "main", g.reachFrom [] true entry, entry, true, []⟩ : Chunk)][n]? = some c →
      n = 0 ∧ c = ⟨0, "main", g.reachFrom [] true entry, entry, true, []⟩ := by
    intro n c hn
    cases n with
    | zero => exact ⟨rfl, (Option.some.inj hn).symm⟩
    | succ n => simp at hn
  refine ⟨⟨[], rfl, List.nodup_nil, fun k => by simp⟩, ?_, ?_, ?_, ?_, ?_⟩
  · intro n c hn
    obtain ⟨rfl, rfl⟩ := hget n c hn
    rfl
  · intro n c hn
    obtain ⟨rfl, rfl⟩ := hget n c hn
    simp
  · intro c hc
    rw [List.mem_singleton.1 hc]
    exact g.nodup_reachFrom ..
  · intro c hc k
    rw [List.mem_singleton.1 hc]
    exact mem_reachFrom_all
  · exact fun k hk => ⟨_, List.mem_singleton_self _, mem_reachFrom_all.2 hk⟩

theorem divides_split (g : ModuleGraph) (entry : Nat) :
    g.Divides entry (g.IsSplit entry) (fun c => g.Within (StartsLazily (g.chunks entry false)) c.entry)
      (g.chunks entry false) := by
  have hget : ∀ n c, (g.chunks entry false)[n]? = some c → c.id = n ∧ (c.isEntry = true ↔ n = 0) := by
    intro n c hn
    rw [chunks_split] at hn
    cases n with
    | zero =>
      obtain rfl := Option.some.inj hn
      exact ⟨rfl, by simp [mainChunk]⟩
    | succ n =>
      rw [List.getElem?_cons_succ, List.getElem?_map, List.getElem?_zipIdx] at hn
      obtain ⟨p, hp, rfl⟩ := Option.map_eq_some_iff.1 hn
      obtain ⟨k, -, rfl⟩ := Option.map_eq_some_iff.1 hp
      exact ⟨by simp [lazyChunk], by simp [lazyChunk]⟩
  refine ⟨⟨g.lazyStarts entry, ?_, g.nodup_lazyStarts entry, fun k => mem_lazyStarts⟩, fun n c hn => (hget n c hn).1,
    fun n c hn => (hget n c hn).2, ?_, fun c hc k => mem_modules_iff hc, fun k => exists_chunk_of_leadsTo⟩
  · rw [chunks_split, List.map_cons, List.map_map]
    exact congrArg (entry :: ·) (List.zipIdx_map_fst 0 _)
  · intro c hc
    rcases mem_chunks_split.1 hc with rfl | ⟨n, k, -, rfl⟩
    · exact g.nodup_reachFrom ..
    · exact g.nodup_reachFrom ..

/-! ### Chunks that import the entry -/

/-- A chunk starts with the module. -/
def Starts (chunks : List Chunk) (k : Nat) : Prop := ∃ c ∈ chunks, c.entry = k

theorem starts_chunks :
    Starts (g.chunks entry false) k ↔ k = entry ∨ StartsLazily (g.chunks entry false) k := by
  constructor
  · rintro ⟨c, hc, rfl⟩
    rcases mem_chunks_split.1 hc with rfl | ⟨n, k, hk, rfl⟩
    · exact Or.inl rfl
    · exact Or.inr ⟨_, hc, rfl, rfl⟩
  · rintro (rfl | ⟨c, hc, -, rfl⟩)
    · exact ⟨_, mem_chunks_split.2 (Or.inl rfl), rfl⟩
    · exact ⟨c, hc, rfl⟩

theorem isEntry_eq_false_iff (hc : c ∈ g.chunks entry false) : c.isEntry = false ↔ c.entry ≠ entry := by
  rcases mem_chunks_split.1 hc with rfl | ⟨n, k, hk, rfl⟩
  · simp [mainChunk]
  · simpa [lazyChunk] using (mem_lazyStarts.1 (List.mem_of_getElem? hk)).1

/-- The start of a chunk ends the way to it in each other chunk just when none of these leads to the entry. -/
theorem within_starts_iff (g : ModuleGraph) (entry : Nat) :
    (∀ c ∈ g.chunks entry false, ∀ k, k ∈ c.modules ↔ g.Within (Starts (g.chunks entry false)) c.entry k) ↔
      ∀ c ∈ g.chunks entry false, c.isEntry = false → entry ∉ c.modules := by
  constructor
  · intro h c hc hlazy hmem
    have hne := (isEntry_eq_false_iff hc).1 hlazy
    cases (h c hc entry).1 hmem with
    | refl => exact hne rfl
    | tail _ hstep =>
      rcases hstep.2 with heq | hstop
      · exact hne heq.symm
      · exact hstop (starts_chunks.2 (Or.inl rfl))
  · intro h c hc k
    rw [mem_modules_iff hc]
    constructor
    · intro hk
      induction hk with
      | refl => exact ReflTransGen.refl
      | @tail i k hi hstep ih =>
        refine ih.tail ⟨hstep.1, or_iff_not_imp_left.2 fun hne hstarts => ?_⟩
        have hstop := hstep.2.resolve_left hne
        rcases starts_chunks.1 hstarts with rfl | hlazy
        · exact h c hc ((isEntry_eq_false_iff hc).2 (Ne.symm hne)) ((mem_modules_iff hc).2 (hi.tail hstep))
        · exact hstop hlazy
    · refine ReflTransGen.mono (fun i k hstep => ⟨hstep.1, hstep.2.imp_right fun hstop hlazy => ?_⟩) _ _
      exact hstop (starts_chunks.2 (Or.inr hlazy))

/-- The chunks for an entry, with calls followed and with a chunk for each module that calls import. In the latter
case a chunk holds what its start leads to without passing the start of another lazily loaded chunk. The entry is no
such start: it ends the way too exactly when no chunk but the main one holds it. -/
theorem chunks_divide (g : ModuleGraph) (entry : Nat) :
    g.Divides entry (fun _ => False) (fun _ => g.LeadsTo entry) (g.chunks entry true) ∧
      g.Divides entry (g.IsSplit entry) (fun c => g.Within (StartsLazily (g.chunks entry false)) c.entry)
        (g.chunks entry false) ∧
      (g.Divides entry (g.IsSplit entry) (fun c => g.Within (Starts (g.chunks entry false)) c.entry)
          (g.chunks entry false) ↔
        ∀ c ∈ g.chunks entry false, c.isEntry = false → entry ∉ c.modules) := by
  have hsplit := g.divides_split entry
  refine ⟨g.divides_inline entry, hsplit, fun h => (g.within_starts_iff entry).1 h.mem_iff, fun h => ?_⟩
  exact { hsplit with mem_iff := (g.within_starts_iff entry).2 h }

/-- An entry that imports a module by a call, and is imported by it. -/
def importedBack : ModuleGraph where
  modules :=
    [⟨"index.js", "export const later = () => import('./lazy.js');", [⟨"./lazy.js", true, []⟩],
        [⟨⟨0, 7⟩, .remove⟩, ⟨⟨27, 46⟩, .dynamicImport "./lazy.js"⟩], [("later", "later")]⟩,
      ⟨"lazy.js", "import './index.js';", [⟨"./index.js", false, []⟩],
        [⟨⟨0, 20⟩, .importNames "./index.js" []⟩], []⟩]
  edges := [⟨"index.js", "./lazy.js", "lazy.js", true⟩, ⟨"lazy.js", "./index.js", "index.js", false⟩]

theorem not_divides_importedBack :
    (∀ m ∈ importedBack.modules, (analyze m.source m.id).toOption = some m.analysis) ∧
      ¬ importedBack.Divides 0 (importedBack.IsSplit 0)
        (fun c => importedBack.Within (Starts (importedBack.chunks 0 false)) c.entry)
        (importedBack.chunks 0 false) := by
  refine ⟨by decide +kernel, fun h => ?_⟩
  have hchunks : (importedBack.chunks 0 false)[1]? = some ⟨1, "lazy", [1, 0], 1, false, []⟩ := by decide +kernel
  exact (within_starts_iff importedBack 0).1 h.mem_iff _ (List.mem_of_getElem? hchunks) rfl (by decide)

/-! ### What is loaded lazily -/

/-- A chunk lists the chunks that start with what its modules import by calls. -/
def LoadsLazily (g : ModuleGraph) (chunks : List Chunk) (c : Chunk) : Prop :=
  ∀ n, n ∈ c.dependencies ↔ ∃ c' ∈ chunks, c'.id = n ∧ ∃ i ∈ c.modules, g.Imports true i c'.entry

theorem mem_dependencies (hc : c ∈ g.chunks entry false) : n ∈ c.dependencies ↔
    c.isEntry = true ∧ ∃ c' ∈ g.chunks entry false, c'.isEntry = false ∧ c'.id = n := by
  have hlazy : (∃ c' ∈ g.chunks entry false, c'.isEntry = false ∧ c'.id = n) ↔
      ∃ j < (g.lazyStarts entry).length, j + 1 = n := by
    constructor
    · rintro ⟨c', hc', hlazy, rfl⟩
      rcases mem_chunks_split.1 hc' with rfl | ⟨j, k, hk, rfl⟩
      · contradiction
      · exact ⟨j, (List.getElem?_eq_some_iff.1 hk).1, rfl⟩
    · rintro ⟨j, hj, rfl⟩
      exact ⟨_, mem_chunks_split.2 (Or.inr ⟨j, _, List.getElem?_eq_getElem hj, rfl⟩), rfl, rfl⟩
  rw [hlazy]
  rcases mem_chunks_split.1 hc with rfl | ⟨j, k, hk, rfl⟩
  · simp [mainChunk]
  · simp [lazyChunk]

theorem chunk_eq_of_isEntry {c' : Chunk} (hc : c ∈ g.chunks entry false) (hc' : c' ∈ g.chunks entry false)
    (h : c.isEntry = true) (h' : c'.isEntry = true) : c = c' := by
  have hmain : ∀ c ∈ g.chunks entry false, c.isEntry = true → c = g.mainChunk entry (g.lazyStarts entry) := by
    intro c hc h
    rcases mem_chunks_split.1 hc with rfl | ⟨n, k, -, rfl⟩
    · rfl
    · contradiction
  rw [hmain c hc h, hmain c' hc' h']

theorem chunk_eq_of_id {c' : Chunk} (hc : c ∈ g.chunks entry false) (hc' : c' ∈ g.chunks entry false)
    (h : c.id = c'.id) : c = c' := by
  obtain ⟨n, hn⟩ := List.getElem?_of_mem hc
  obtain ⟨n', hn'⟩ := List.getElem?_of_mem hc'
  have hid := (g.divides_split entry).id
  rw [← hid n c hn, h, hid n' c' hn', hn'] at hn
  exact (Option.some.inj hn).symm

/-- Chunks list the others that they load lazily exactly when calls that import stand in no chunk but the main one,
where they import the start of each other chunk and not the entry. -/
theorem loadsLazily_iff (g : ModuleGraph) (entry : Nat) :
    (∀ c ∈ g.chunks entry false, g.LoadsLazily (g.chunks entry false) c) ↔
      (∀ c ∈ g.chunks entry false, ∀ i ∈ c.modules, ∀ k, g.Imports true i k → c.isEntry = true ∧ k ≠ entry) ∧
        ∀ c ∈ g.chunks entry false, c.isEntry = false →
          ∃ main ∈ g.chunks entry false, main.isEntry = true ∧ ∃ i ∈ main.modules, g.Imports true i c.entry := by
  constructor
  · intro h
    constructor
    · intro c hc i hi k himports
      obtain ⟨c', hc', rfl⟩ := exists_chunk_of_dynamic entry himports
      have hlisted := (h c hc c'.id).2 ⟨c', hc', rfl, i, hi, himports⟩
      obtain ⟨hentry, c'', hc'', hlazy, hid⟩ := (mem_dependencies hc).1 hlisted
      obtain rfl := chunk_eq_of_id hc'' hc' hid
      exact ⟨hentry, (isEntry_eq_false_iff hc').1 hlazy⟩
    · intro c hc hlazy
      have hmain : g.mainChunk entry (g.lazyStarts entry) ∈ g.chunks entry false := mem_chunks_split.2 (Or.inl rfl)
      obtain ⟨c', hc', hid, himports⟩ := (h _ hmain c.id).1 ((mem_dependencies hmain).2 ⟨rfl, c, hc, hlazy, rfl⟩)
      obtain rfl := chunk_eq_of_id hc' hc hid
      exact ⟨_, hmain, rfl, himports⟩
  · rintro ⟨hcalls, hstarts⟩ c hc n
    rw [mem_dependencies hc]
    constructor
    · rintro ⟨hentry, c', hc', hlazy, rfl⟩
      obtain ⟨main, hmain, hfirst, himports⟩ := hstarts c' hc' hlazy
      obtain rfl := chunk_eq_of_isEntry hmain hc hfirst hentry
      exact ⟨c', hc', rfl, himports⟩
    · rintro ⟨c', hc', rfl, i, hi, himports⟩
      obtain ⟨hentry, hne⟩ := hcalls c hc i hi _ himports
      exact ⟨hentry, c', hc', (isEntry_eq_false_iff hc').2 hne, rfl⟩

/-- An entry that imports a module by a call, which imports another one by a call. -/
def nestedCalls : ModuleGraph where
  modules :=
    [⟨"index.js", "export const later = () => import('./a.js');", [⟨"./a.js", true, []⟩],
        [⟨⟨0, 7⟩, .remove⟩, ⟨⟨27, 43⟩, .dynamicImport "./a.js"⟩], [("later", "later")]⟩,
      ⟨"a.js", "export const more = () => import('./b.js');", [⟨"./b.js", true, []⟩],
        [⟨⟨0, 7⟩, .remove⟩, ⟨⟨26, 42⟩, .dynamicImport "./b.js"⟩], [("more", "more")]⟩,
      ⟨"b.js", "export const b = 1;", [], [⟨⟨0, 7⟩, .remove⟩], [("b", "b")]⟩]
  edges := [⟨"index.js", "./a.js", "a.js", true⟩, ⟨"a.js", "./b.js", "b.js", true⟩]

theorem not_loadsLazily_nestedCalls :
    (∀ m ∈ nestedCalls.modules, (analyze m.source m.id).toOption = some m.analysis) ∧
      ¬ ∀ c ∈ nestedCalls.chunks 0 false, nestedCalls.LoadsLazily (nestedCalls.chunks 0 false) c := by
  refine ⟨by decide +kernel, fun h => ?_⟩
  have hchunks : nestedCalls.chunks 0 false = [⟨0, "main", [0], 0, true, [1, 2]⟩, ⟨1, "a", [1], 1, false, []⟩,
      ⟨2, "b", [2], 2, false, []⟩] := by decide +kernel
  rw [hchunks] at h
  -- The module `a.js` imports `b.js` by a call, but its chunk lists none.
  have hcall : nestedCalls.Imports true 1 2 := ⟨_, rfl, by decide +kernel⟩
  have hlisted := (h ⟨1, "a", [1], 1, false, []⟩ (by decide) 2).2
    ⟨⟨2, "b", [2], 2, false, []⟩, by decide, rfl, 1, List.mem_singleton_self 1, hcall⟩
  exact List.not_mem_nil hlisted

end ModuleGraph

end LiveNotes.Bundle
