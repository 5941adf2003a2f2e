import LiveNotes.Proofs.Bundle.Lookup
import Mathlib.Data.List.Nodup
import Mathlib.Data.List.Perm.Subperm

/-! The walk over the modules that an entry needs. It comes to its end when plugins can load no more than so many
modules, loads each of them once, and takes them in the order of their discovery, so that none comes before one
that fewer imports lead to. -/

namespace LiveNotes

open LiveNotes.Bundle

/-- The id of a module that the bundler asks to load. -/
def Query.loaded? : Query → Option String
  | .load id => some id
  | .resolve _ _ => none

namespace Bundle

/-- The module that an answer names, unless it is left to the page. -/
def Resolved.inner? : Resolved → Option String
  | ⟨id, false⟩ => some id
  | ⟨_, true⟩ => none

end Bundle

namespace Gathering

variable {plugins : List Plugin} {root importer id : String} {s s' : Gathering} {ids before after stored : List String}
  {r : Except Error Gathering} {limit n : Nat}

/-- The modules in the queue are loaded, one after the other, until none is left or one of them fails. The walk lists
their ids in the order in which they are taken, and ends with what is gathered. -/
inductive Walks (plugins : List Plugin) : Gathering → List String → Except Error Gathering → Prop
  | done {s : Gathering} : s.queue = [] → Walks plugins s [] (.ok s)
  | fails {s : Gathering} {id : String} {queue : List String} {e : Error} : s.queue = id :: queue →
      load plugins { s with queue := queue } id = .error e → Walks plugins s [id] (.error e)
  | loads {s s' : Gathering} {id : String} {queue ids : List String} {r : Except Error Gathering} :
      s.queue = id :: queue → load plugins { s with queue := queue } id = .ok s' → Walks plugins s' ids r →
      Walks plugins s (id :: ids) r

/-! ### A walk is what a run does that may go on as long -/

theorem Walks.run (h : Walks plugins s ids r) (hlimit : ids.length ≤ limit) : run plugins limit s = r := by
  induction h generalizing limit with
  | done hqueue => cases limit <;> simp only [Gathering.run, hqueue]
  | fails hqueue hload =>
    obtain ⟨limit, rfl⟩ := Nat.exists_eq_add_one.2 hlimit
    simp only [Gathering.run, hqueue, hload]
    rfl
  | loads hqueue hload _ ih =>
    obtain ⟨limit, rfl⟩ := Nat.exists_eq_add_one.2 (Nat.zero_lt_of_lt hlimit)
    simp only [Gathering.run, hqueue, hload]
    exact ih (Nat.le_of_succ_le_succ hlimit)

theorem filterMap_loadQueries (plugins : List Plugin) (id : String) :
    (loadQueries plugins id).filterMap Query.loaded? = [id] := by
  have himports : ∀ imports, (importQueries plugins id imports).filterMap Query.loaded? = [] := by
    intro imports
    refine List.filterMap_eq_nil_iff.2 fun q hq => ?_
    obtain ⟨specifier, rfl⟩ := mem_importQueries hq
    rfl
  rw [loadQueries, List.filterMap_cons]
  dsimp only [Query.loaded?]
  split
  · rw [himports]
  · rfl

theorem Walks.queries (h : Walks plugins s ids r) (hlimit : ids.length ≤ limit) :
    (queries plugins limit s).filterMap Query.loaded? = ids := by
  induction h generalizing limit with
  | done hqueue => rw [queries_nil limit hqueue, List.filterMap_nil]
  | fails hqueue hload =>
    obtain ⟨limit, rfl⟩ := Nat.exists_eq_add_one.2 hlimit
    simp only [Gathering.queries, hqueue, hload, List.append_nil, filterMap_loadQueries]
  | loads hqueue hload _ ih =>
    obtain ⟨limit, rfl⟩ := Nat.exists_eq_add_one.2 (Nat.zero_lt_of_lt hlimit)
    simp only [Gathering.queries, hqueue, hload, List.filterMap_append, filterMap_loadQueries]
    rw [ih (Nat.le_of_succ_le_succ hlimit), List.singleton_append]

/-! ### What is loaded -/

theorem exists_text_of_load (h : load plugins s id = .ok s') : ∃ text, Plugins.load plugins id = .ok (some text) := by
  obtain ⟨m, -, rfl, ⟨text, htext, -⟩, -⟩ := load_eq_ok h
  exact ⟨text, htext⟩

theorem Gathers.length_ids_le (h : Gathers plugins root [] s) (hids : s.graph.ids ⊆ stored) :
    s.graph.ids.length ≤ stored.length := by
  have hnodup := h.nodup
  rw [List.append_nil] at hnodup
  exact (List.subperm_of_subset (List.nodup_append.1 hnodup).1 hids).length_le

/-- A walk ends when there are finitely many modules that plugins can load. -/
theorem exists_walk (hstored : ∀ id text, Plugins.load plugins id = .ok (some text) → id ∈ stored)
    (h : Gathers plugins root [] s) (hids : s.graph.ids ⊆ stored) : ∃ ids r, Walks plugins s ids r := by
  -- Each module that is loaded leaves one less of those that can be.
  obtain ⟨n, hn⟩ : ∃ n, stored.length - s.graph.ids.length = n := ⟨_, rfl⟩
  induction n using Nat.strong_induction_on generalizing s with
  | _ n ih =>
    cases hqueue : s.queue with
    | nil => exact ⟨[], _, Walks.done hqueue⟩
    | cons id queue =>
      cases hload : Gathering.load plugins { s with queue := queue } id with
      | error e => exact ⟨[id], _, Walks.fails hqueue hload⟩
      | ok s' =>
        obtain ⟨text, htext⟩ := exists_text_of_load hload
        have hnext := h.load hqueue hload
        have hgrown : s'.graph.ids = s.graph.ids ++ [id] := (of_load hload).1
        have hsub : s'.graph.ids ⊆ stored := by
          rw [hgrown]
          exact List.append_subset.2 ⟨hids, List.cons_subset.2 ⟨hstored id text htext, List.nil_subset _⟩⟩
        have hlength := hnext.length_ids_le hsub
        rw [hgrown, List.length_append, List.length_singleton] at hlength
        obtain ⟨ids, r, hwalk⟩ := ih _ (by rw [hgrown, List.length_append, List.length_singleton]; omega) hnext hsub rfl
        exact ⟨id :: ids, r, Walks.loads hqueue hload hwalk⟩

theorem Walks.nodup (h : Walks plugins s ids r) (hs : Gathers plugins root [] s) : (s.graph.ids ++ ids).Nodup := by
  induction h with
  | done hqueue => simpa [hqueue] using hs.nodup
  | @fails s id queue e hqueue hload =>
    have hnodup := hs.nodup
    rw [List.append_nil, hqueue] at hnodup
    exact hnodup.sublist (List.Sublist.append_left (List.singleton_sublist.2 List.mem_cons_self) _)
  | loads hqueue hload _ ih =>
    have hnodup := ih (hs.load hqueue hload)
    rwa [(of_load hload).1, List.append_assoc] at hnodup

/-- All modules of a walk but the last one are loaded. -/
theorem Walks.loaded (h : Walks plugins s ids r) :
    ∀ id ∈ ids.dropLast, ∃ text, Plugins.load plugins id = .ok (some text) := by
  induction h with
  | done => exact fun id hid => absurd hid List.not_mem_nil
  | fails => exact fun id hid => absurd hid List.not_mem_nil
  | @loads s s' first queue ids r hqueue hload _ ih =>
    intro id hid
    cases ids with
    | nil => contradiction
    | cons second ids =>
      rw [List.dropLast_cons_cons, List.mem_cons] at hid
      rcases hid with rfl | hid
      · exact exists_text_of_load hload
      · exact ih id hid

theorem Walks.ids_eq (h : Walks plugins s ids (.ok s')) : s'.graph.ids = s.graph.ids ++ ids := by
  obtain ⟨r, hr⟩ : ∃ r, r = Except.ok (ε := Error) s' := ⟨_, rfl⟩
  rw [← hr] at h
  induction h with
  | done => rw [Except.ok.inj hr, List.append_nil]
  | fails => contradiction
  | loads hqueue hload _ ih => rw [ih hr, (of_load hload).1, List.append_assoc, List.singleton_append]

/-! ### The order of discovery -/

/-- The modules that imports of the module `importer` are resolved to, in their order. -/
def found (plugins : List Plugin) (importer : String) (imports : List Import) : List String :=
  imports.filterMap fun i =>
    (Plugins.resolve plugins i.specifier (some importer)).toOption.join.bind Resolved.inner?

/-- The modules that a module leads to, if it can be read, in the order of its imports. -/
def leadsTo (plugins : List Plugin) (id : String) : List String :=
  match readModule plugins id with
  | .ok m => found plugins id m.analysis.imports
  | .error _ => []

/-- The modules that are known of when `ids` were loaded for `root`, each where it was found first. -/
def discovered (plugins : List Plugin) (root : String) (ids : List String) : List String :=
  (root :: ids.flatMap (leadsTo plugins)).eraseDups

/-- What was found is known, each id where it was found first, and waits in this order unless it was taken. -/
structure Discovers (found taken : List String) (s : Gathering) : Prop where
  known : s.known = found.eraseDups
  waiting : s.known = taken ++ s.queue

variable {found taken : List String}

theorem discovers_start (root : String) : Discovers [root] [] (start root) := ⟨rfl, rfl⟩

theorem Discovers.addImport (h : Discovers found taken s) (importer : String) (i : Import) (answer : Option Resolved) :
    Discovers (found ++ (answer.bind Resolved.inner?).toList) taken (s.addImport importer i answer) := by
  rcases answer with - | ⟨id, - | -⟩
  · exact (List.append_nil found).symm ▸ ⟨h.known, h.waiting⟩
  · have hmem : id ∈ s.known ↔ id ∈ found := by rw [h.known, List.mem_eraseDups]
    have happend : (found ++ [id]).eraseDups = s.known ++ ([id].removeAll found).eraseDups := by
      rw [List.eraseDups_append, h.known]
    change Discovers (found ++ [id]) taken _
    by_cases hid : id ∈ s.known
    · rw [addImport_known i hid]
      have hnone : [id].removeAll found = [] := by simp [List.removeAll, hmem.1 hid]
      rw [hnone, List.eraseDups_nil, List.append_nil] at happend
      exact ⟨happend.symm, h.waiting⟩
    · rw [addImport_new i hid]
      have hone : [id].removeAll found = [id] := by simp [List.removeAll, mt hmem.2 hid]
      rw [hone] at happend
      refine ⟨happend.symm, ?_⟩
      dsimp only
      rw [h.waiting, List.append_assoc]
  · obtain ⟨more, heq, -⟩ := s.addImport_external importer i id
    rw [heq]
    exact (List.append_nil found).symm ▸ ⟨h.known, h.waiting⟩

theorem Discovers.addImports {imports : List Import} (h : Discovers found taken s)
    (hs : addImports plugins importer imports s = .ok s') :
    Discovers (found ++ Gathering.found plugins importer imports) taken s' := by
  induction imports generalizing s found with
  | nil =>
    obtain rfl := Except.ok.inj hs
    exact (List.append_nil found).symm ▸ h
  | cons i imports ih =>
    obtain ⟨answer, hanswer, hrest⟩ := addImports_cons hs
    have hfound : Gathering.found plugins importer (i :: imports) =
        (answer.bind Resolved.inner?).toList ++ Gathering.found plugins importer imports := by
      rw [Gathering.found, List.filterMap_cons, hanswer]
      dsimp only [Except.toOption, Option.join_some]
      cases answer.bind Resolved.inner? <;> rfl
    rw [hfound, ← List.append_assoc]
    exact ih (h.addImport importer i answer) hrest

theorem Discovers.load {queue : List String} (h : Discovers found taken s) (hqueue : s.queue = id :: queue)
    (hs : load plugins { s with queue := queue } id = .ok s') :
    Discovers (found ++ leadsTo plugins id) (taken ++ [id]) s' := by
  rw [load_eq] at hs
  obtain ⟨m, hm, hs⟩ := bind_eq_ok.1 hs
  obtain ⟨s₁, hs₁, hs⟩ := bind_eq_ok.1 hs
  obtain rfl := Except.ok.inj hs
  have htaken : Discovers found (taken ++ [id]) { s with queue := queue } :=
    ⟨h.known, by rw [List.append_assoc, List.singleton_append, ← hqueue, h.waiting]⟩
  rw [leadsTo, hm]
  exact ⟨(htaken.addImports hs₁).known, (htaken.addImports hs₁).waiting⟩

/-- Modules are taken in the order of their discovery: each is the next one that the modules before it led to. -/
theorem Walks.discovers (h : Walks plugins s ids r) (hs : Discovers found taken s)
    (hids : ids = before ++ id :: after) :
    taken ++ before ++ [id] <+: (found ++ before.flatMap (leadsTo plugins)).eraseDups := by
  -- What stands first in the queue is the first of the known modules that was not taken.
  have hnext : ∀ {s : Gathering} {found taken queue : List String}, Discovers found taken s → s.queue = id :: queue →
      taken ++ [] ++ [id] <+: (found ++ [].flatMap (leadsTo plugins)).eraseDups := by
    intro s found taken queue hs hqueue
    refine ⟨queue, ?_⟩
    rw [List.flatMap_nil, List.append_nil, List.append_nil, ← hs.known, hs.waiting, hqueue, List.append_assoc,
      List.singleton_append]
  induction h generalizing found taken before with
  | done => simp at hids
  | fails hqueue =>
    obtain ⟨rfl, heq⟩ | ⟨rest, rfl, heq⟩ := List.append_eq_cons_iff.1 hids.symm
    · obtain ⟨rfl, -⟩ := List.cons.inj heq
      exact hnext hs hqueue
    · simp at heq
  | loads hqueue hload _ ih =>
    obtain ⟨rfl, heq⟩ | ⟨rest, rfl, heq⟩ := List.append_eq_cons_iff.1 hids.symm
    · obtain ⟨rfl, -⟩ := List.cons.inj heq
      exact hnext hs hqueue
    · have hrest := ih (hs.load hqueue hload) heq
      rw [List.flatMap_cons, ← List.append_assoc]
      rwa [List.append_assoc taken, List.singleton_append] at hrest

/-! ### The modules that fewer imports lead to come first -/

/-- So many imports lead from `root` to a module. -/
inductive ReachedIn (plugins : List Plugin) (root : String) : Nat → String → Prop
  | root : ReachedIn plugins root 0 root
  | imported {n : Nat} {importer id : String} : ReachedIn plugins root n importer → id ∈ leadsTo plugins importer →
      ReachedIn plugins root (n + 1) id

/-- Each module comes next when those before it were loaded. -/
def InDiscoveryOrder (plugins : List Plugin) (root : String) (ids : List String) : Prop :=
  ∀ before id after, ids = before ++ id :: after → before ++ [id] <+: discovered plugins root before

theorem mem_discovered :
    id ∈ discovered plugins root ids ↔ id = root ∨ ∃ importer ∈ ids, id ∈ leadsTo plugins importer := by
  rw [discovered, List.mem_eraseDups, List.mem_cons, List.mem_flatMap]

theorem discovered_grows (plugins : List Plugin) (root : String) (ids more : List String) :
    discovered plugins root ids <+: discovered plugins root (ids ++ more) := by
  rw [discovered, discovered, List.flatMap_append, ← List.cons_append, List.eraseDups_append]
  exact List.prefix_append ..

/-- A module that was discovered has a first module that leads to it. -/
theorem exists_parent (h : id ∈ discovered plugins root ids) (hroot : id ≠ root) :
    ∃ early parent late, ids = early ++ parent :: late ∧ id ∈ leadsTo plugins parent ∧
      id ∉ discovered plugins root early := by
  have hfound : ∃ p ∈ ids, decide (id ∈ leadsTo plugins p) = true := by
    simpa using (mem_discovered.1 h).resolve_left hroot
  obtain ⟨parent, hparent⟩ := Option.isSome_iff_exists.1 (List.find?_isSome.2 hfound)
  obtain ⟨hleads, early, late, rfl, hearly⟩ := List.find?_eq_some_iff_append.1 hparent
  refine ⟨early, parent, late, rfl, of_decide_eq_true hleads, ?_⟩
  rw [mem_discovered]
  rintro (heq | ⟨p, hp, hid⟩)
  · exact hroot heq
  · simpa [hid] using hearly p hp

theorem InDiscoveryOrder.mem (h : InDiscoveryOrder plugins root ids) (hids : ids = before ++ id :: after) :
    id ∈ discovered plugins root before :=
  (h before id after hids).subset (List.mem_append_right _ List.mem_cons_self)

/-- What was discovered early is loaded before what was not. -/
theorem InDiscoveryOrder.discovered_subset {early late : List String} (h : InDiscoveryOrder plugins root ids)
    (hids : ids = early ++ late ++ id :: after) (hid : id ∉ discovered plugins root early) :
    discovered plugins root early ⊆ early ++ late := by
  have hprefix : discovered plugins root early <+: early ++ late ++ [id] := by
    refine (List.prefix_or_prefix_of_prefix (h _ _ _ hids) (discovered_grows plugins root early late)).resolve_left ?_
    exact fun hall => hid (hall.subset (List.mem_append_right _ List.mem_cons_self))
  rcases List.prefix_concat_iff.1 hprefix with heq | hprefix
  · exact absurd (heq ▸ List.mem_append_right _ List.mem_cons_self) hid
  · exact hprefix.subset

/-- Whatever was not loaded before a module needs no fewer imports to be reached. -/
theorem InDiscoveryOrder.reachedIn {other : String} (h : InDiscoveryOrder plugins root ids)
    (hids : ids = before ++ id :: after) (hother : other ∉ before) (hreached : ReachedIn plugins root n other) :
    ∃ k ≤ n, ReachedIn plugins root k id := by
  -- By the imports to the other module: its importer was not loaded before the first module that leads to this one.
  induction hreached generalizing before id after with
  | root =>
    cases before with
    | nil =>
      rcases mem_discovered.1 (h.mem hids) with rfl | ⟨importer, hmem, -⟩
      · exact ⟨0, Nat.le_refl 0, ReachedIn.root⟩
      · contradiction
    | cons first before =>
      have hfirst : first ∈ discovered plugins root [] := h.mem hids
      rcases mem_discovered.1 hfirst with rfl | ⟨importer, hmem, -⟩
      · exact absurd List.mem_cons_self hother
      · contradiction
  | @imported n importer other _ hleads ih =>
    by_cases hroot : id = root
    · exact ⟨0, Nat.zero_le _, hroot ▸ ReachedIn.root⟩
    obtain ⟨early, parent, late, rfl, hparent, hid⟩ := exists_parent (h.mem hids) hroot
    have himporter : importer ∉ early := fun hmem =>
      hother (h.discovered_subset hids hid (mem_discovered.2 (Or.inr ⟨importer, hmem, hleads⟩)))
    have hids' : ids = early ++ parent :: (late ++ id :: after) := by rw [hids, List.append_assoc, List.cons_append]
    obtain ⟨k, hk, hreached⟩ := ih hids' himporter
    exact ⟨k + 1, Nat.succ_le_succ hk, hreached.imported hparent⟩

end Gathering

namespace Bundle

variable {m : MemoryStore} {transpiler : Transpiler} {globals : RuntimeGlobals} {plugins : List Plugin}
  {entry root id text : String} {ids : List String} {r : Except Error Gathering} {limit : Nat}

/-! ### Modules in memory -/

/-- The ids of the files in memory. -/
def storedIds (m : MemoryStore) : List String := m.files.map fun file => Path.modulePrefix ++ file.1

theorem mem_storedIds_of_load
    (h : Plugins.load (components (.memory m) transpiler globals) id = .ok (some text)) : id ∈ storedIds m := by
  rw [load_components, VaultFiles.load] at h
  split at h
  · simp at h
  · next path hid =>
    obtain rfl := Path.eq_of_ofModuleId? hid
    split at h
    · next hhas =>
      obtain ⟨text, htext⟩ := Option.isSome_iff_exists.1 (show (m.files.lookup path).isSome from hhas)
      obtain ⟨before, after, hfiles, -⟩ := List.lookup_eq_some_iff.1 htext
      exact List.mem_map.2 ⟨(path, text), by simp [hfiles], rfl⟩
    · simp at h

theorem exists_entryId (store : Store) (transpiler : Transpiler) (globals : RuntimeGlobals) (entry : String) :
    ∃ root, entryId (components store transpiler globals) entry = .ok root := by
  rw [entryId, resolve_components, VaultFiles.resolve]
  split
  · exact ⟨entry, rfl⟩
  · exact ⟨Path.toModuleId entry, rfl⟩

/-! ### The whole walk -/

/-- How the modules `ids` are walked for `root`: they are loaded one after the other, each once, in the order of their
discovery and so that none comes after one to which more imports lead; all but the last are stored; and if no module
fails, all that their imports are resolved to are among them. -/
structure Walked (plugins : List Plugin) (stored : List String) (root : String) (ids : List String)
    (r : Except Error Gathering) : Prop where
  walks : Gathering.Walks plugins (.start root) ids r
  nodup : ids.Nodup
  stored : ∀ id ∈ ids.dropLast, id ∈ stored
  ordered : Gathering.InDiscoveryOrder plugins root ids
  nearest : ∀ before id after, ids = before ++ id :: after → ∀ n, ∀ other ∈ after,
    Gathering.ReachedIn plugins root n other → ∃ k ≤ n, Gathering.ReachedIn plugins root k id
  closed : ∀ s, r = .ok s → s.graph.ids = ids ∧ ∀ importer ∈ s.graph.modules, ∀ i ∈ importer.analysis.imports, ∀ id,
    Plugins.resolve plugins i.specifier (some importer.id) = .ok (some ⟨id, false⟩) →
      ∃ j k, s.graph.indexOf? importer.id = some j ∧ s.graph.indexOf? id = some k ∧ s.graph.Imports i.dynamic j k

theorem walked {stored : List String} (h : Gathering.Walks plugins (.start root) ids r)
    (hstored : ∀ id text, Plugins.load plugins id = .ok (some text) → id ∈ stored) :
    Walked plugins stored root ids r := by
  have hstart := Gathering.gathers_start plugins root
  have hordered : Gathering.InDiscoveryOrder plugins root ids := fun before id after hids =>
    h.discovers (Gathering.discovers_start root) hids
  have hnodup : ids.Nodup := h.nodup hstart
  refine ⟨h, hnodup, ?_, hordered, ?_, ?_⟩
  · intro id hid
    obtain ⟨text, htext⟩ := h.loaded id hid
    exact hstored id text htext
  · intro before id after hids n other hother
    refine hordered.reachedIn hids fun hmem => ?_
    rw [hids] at hnodup
    exact (List.nodup_append.1 hnodup).2.2 other hmem other (List.mem_cons_of_mem _ hother) rfl
  · rintro s rfl
    obtain ⟨hgathers, hqueue⟩ := hstart.run (h.run (Nat.le_refl _))
    refine ⟨h.ids_eq, fun importer himporter i hi id hfound => ?_⟩
    exact (hgathers.gathered hqueue).leads himporter hi hfound

/-- For an entry in memory the walk ends. It takes at most one module more than there are files, and whoever may take
so many asks for these and gets what they come to. -/
theorem components_walk (m : MemoryStore) (transpiler : Transpiler) (globals : RuntimeGlobals) (entry : String) :
    ∃ root ids r, entryId (components (.memory m) transpiler globals) entry = .ok root ∧
      Walked (components (.memory m) transpiler globals) (storedIds m) root ids r ∧
      ids.length ≤ m.files.length + 1 ∧ ∀ limit, ids.length ≤ limit →
        (queries (components (.memory m) transpiler globals) entry limit).filterMap Query.loaded? = ids ∧
        gather (components (.memory m) transpiler globals) entry limit =
          r.map fun s => (s, (s.graph.indexOf? root).getD 0) := by
  have hstored : ∀ id text, Plugins.load (components (.memory m) transpiler globals) id = .ok (some text) →
      id ∈ storedIds m := fun _ _ => mem_storedIds_of_load
  obtain ⟨root, hroot⟩ := exists_entryId (.memory m) transpiler globals entry
  obtain ⟨ids, r, hwalks⟩ := Gathering.exists_walk hstored (Gathering.gathers_start _ root) (List.nil_subset _)
  have hwalked := walked hwalks hstored
  refine ⟨root, ids, r, hroot, hwalked, ?_, fun limit hlimit => ⟨?_, ?_⟩⟩
  · have hnodup := hwalked.nodup.sublist (List.dropLast_sublist ids)
    have hlength := (List.subperm_of_subset hnodup hwalked.stored).length_le
    rw [List.length_dropLast, storedIds, List.length_map] at hlength
    exact Nat.sub_le_iff_le_add.1 hlength
  · rw [queries, hroot, List.filterMap_cons]
    exact hwalks.queries hlimit
  · rw [gather, hroot]
    change (Gathering.run _ limit (.start root) >>= _) = _
    rw [hwalks.run hlimit]
    cases r <;> rfl

end Bundle

end LiveNotes
