import LiveNotes.Proofs.Bundle.Closed

/-! What is asked while a bundle is made. The bundler asks its plugins to load modules and to resolve their
imports, one query after the other until one fails, and each module that is loaded was named by the entry or
by an import of a module that was loaded before. -/

namespace LiveNotes

open LiveNotes.Bundle

/-- What the bundler asks its plugins for. -/
inductive Query where
  | load (id : String)
  | resolve (specifier : String) (importer : Option String)
  deriving DecidableEq, Repr

namespace Gathering

variable {plugins : List Plugin} {importer id : String} {s s' : Gathering} {m : Module} {imports : List Import}
  {asked : List Query} {fuel : Nat}

/-- A module as plugins give it. -/
def readModule (plugins : List Plugin) (id : String) : Except Error Module := do
  match ← (Plugins.load plugins id).mapError PluginError.toError with
  | none => throw (.bundle (.load "No plugin could load the module" (some id)))
  | some text =>
    let code ← (Plugins.transform plugins text id).mapError PluginError.toError
    let analysis ← (analyze code id).mapError Error.bundle
    pure ⟨id, code, analysis⟩

def addImports (plugins : List Plugin) (importer : String) (imports : List Import) (s : Gathering) :
    Except Error Gathering :=
  imports.foldlM (fun s i => do
    let found ← (Plugins.resolve plugins i.specifier (some importer)).mapError PluginError.toError
    pure (s.addImport importer i found)) s

theorem load_eq (plugins : List Plugin) (s : Gathering) (id : String) :
    load plugins s id = (do
      let m ← readModule plugins id
      let s ← addImports plugins id m.analysis.imports s
      pure { s with graph := s.graph.add m }) := by
  unfold load readModule addImports
  cases (Plugins.load plugins id).mapError PluginError.toError with
  | error e => rfl
  | ok text? =>
    cases text? with
    | none => rfl
    | some text =>
      simp only [bind, Except.bind, pure, Except.pure]
      cases (Plugins.transform plugins text id).mapError PluginError.toError with
      | error e => rfl
      | ok code =>
        simp only
        cases (analyze code id).mapError Error.bundle with
        | error e => rfl
        | ok analysis => rfl

theorem readModule_id (h : readModule plugins id = .ok m) : m.id = id := by
  obtain ⟨text?, -, h⟩ := bind_eq_ok.1 h
  cases text? with
  | none => contradiction
  | some text =>
    obtain ⟨code, -, h⟩ := bind_eq_ok.1 h
    obtain ⟨analysis, -, h⟩ := bind_eq_ok.1 h
    rw [← Except.ok.inj h]

/-! ### The queries of a run -/

def importQueries (plugins : List Plugin) (importer : String) : List Import → List Query
  | [] => []
  | i :: imports => .resolve i.specifier (some importer) ::
    match Plugins.resolve plugins i.specifier (some importer) with
    | .ok _ => importQueries plugins importer imports
    | .error _ => []

def loadQueries (plugins : List Plugin) (id : String) : List Query :=
  .load id :: match readModule plugins id with
    | .ok m => importQueries plugins id m.analysis.imports
    | .error _ => []

/-- The queries of a run, in their order. -/
def queries (plugins : List Plugin) : Nat → Gathering → List Query
  | 0, _ => []
  | fuel + 1, s =>
    match s.queue with
    | [] => []
    | id :: queue => loadQueries plugins id ++
      match load plugins { s with queue := queue } id with
      | .ok s => queries plugins fuel s
      | .error _ => []

theorem queries_nil (fuel : Nat) (h : s.queue = []) : queries plugins fuel s = [] := by
  cases fuel with
  | zero => rfl
  | succ fuel => rw [queries, h]

/-- The ids that queries lead to, from the entry on. -/
inductive Led (plugins : List Plugin) (asked : List Query) : String → Prop
  | entry {entry id : String} : .resolve entry none ∈ asked →
      Plugins.resolve plugins entry none = .ok (some ⟨id, false⟩) → Led plugins asked id
  | imported {specifier importer id : String} : Led plugins asked importer → .load importer ∈ asked →
      .resolve specifier (some importer) ∈ asked →
      Plugins.resolve plugins specifier (some importer) = .ok (some ⟨id, false⟩) → Led plugins asked id

theorem addImports_cons {i : Import} (h : addImports plugins importer (i :: imports) s = .ok s') :
    ∃ found, Plugins.resolve plugins i.specifier (some importer) = .ok found ∧
      addImports plugins importer imports (s.addImport importer i found) = .ok s' := by
  rw [addImports, List.foldlM_cons] at h
  obtain ⟨s₁, hfirst, hrest⟩ := bind_eq_ok.1 h
  obtain ⟨found, hfound, hs₁⟩ := bind_eq_ok.1 hfirst
  rw [mapError_eq_ok] at hfound
  obtain rfl := Except.ok.inj hs₁
  exact ⟨found, hfound, hrest⟩

theorem mem_queue_addImport {i : Import} {found : Option Resolved} (h : id ∈ (s.addImport importer i found).queue) :
    id ∈ s.queue ∨ found = some ⟨id, false⟩ := by
  rcases found with - | ⟨target, - | -⟩
  · exact Or.inl h
  · by_cases hknown : target ∈ s.known
    · rw [addImport_known i hknown] at h
      exact Or.inl h
    · rw [addImport_new i hknown] at h
      rcases List.mem_append.1 h with h | h
      · exact Or.inl h
      · exact Or.inr (by rw [List.mem_singleton.1 h])
  · obtain ⟨more, heq, -⟩ := s.addImport_external importer i target
    rw [heq] at h
    exact Or.inl h

/-- Imports change nothing of the modules that there are, and what they put in the queue was asked for. -/
theorem of_addImports (h : addImports plugins importer imports s = .ok s') :
    s.graph.modules = s'.graph.modules ∧ ∀ id ∈ s'.queue, id ∈ s.queue ∨ ∃ specifier,
      .resolve specifier (some importer) ∈ importQueries plugins importer imports ∧
        Plugins.resolve plugins specifier (some importer) = .ok (some ⟨id, false⟩) := by
  induction imports generalizing s with
  | nil =>
    obtain rfl := Except.ok.inj h
    exact ⟨rfl, fun id hid => Or.inl hid⟩
  | cons i imports ih =>
    obtain ⟨found, hfound, hrest⟩ := addImports_cons h
    obtain ⟨hmodules, hqueue⟩ := ih hrest
    refine ⟨(extends_addImport s importer i found).modules.trans hmodules, ?_⟩
    intro id hid
    rw [importQueries, hfound]
    rcases hqueue id hid with hid | ⟨specifier, hmem, hspecifier⟩
    · rcases mem_queue_addImport hid with hid | rfl
      · exact Or.inl hid
      · exact Or.inr ⟨i.specifier, List.mem_cons_self, hfound⟩
    · exact Or.inr ⟨specifier, List.mem_cons_of_mem _ hmem, hspecifier⟩

theorem of_load (h : load plugins s id = .ok s') :
    s'.graph.ids = s.graph.ids ++ [id] ∧ ∀ target ∈ s'.queue, target ∈ s.queue ∨ ∃ specifier,
      .resolve specifier (some id) ∈ loadQueries plugins id ∧
        Plugins.resolve plugins specifier (some id) = .ok (some ⟨target, false⟩) := by
  rw [load_eq] at h
  obtain ⟨m, hm, h⟩ := bind_eq_ok.1 h
  obtain ⟨s₁, hs₁, h⟩ := bind_eq_ok.1 h
  obtain rfl := Except.ok.inj h
  obtain ⟨hmodules, hqueue⟩ := of_addImports hs₁
  refine ⟨?_, ?_⟩
  · rw [ModuleGraph.ids_add, readModule_id hm, ModuleGraph.ids, ModuleGraph.ids, hmodules]
  · intro target htarget
    rcases hqueue target htarget with hold | ⟨specifier, hmem, hspecifier⟩
    · exact Or.inl hold
    · refine Or.inr ⟨specifier, ?_, hspecifier⟩
      rw [loadQueries, hm]
      exact List.mem_cons_of_mem _ hmem

theorem mem_importQueries {q : Query} (h : q ∈ importQueries plugins importer imports) :
    ∃ specifier, q = .resolve specifier (some importer) := by
  induction imports with
  | nil => contradiction
  | cons i imports ih =>
    rw [importQueries] at h
    rcases List.mem_cons.1 h with rfl | h
    · exact ⟨_, rfl⟩
    · split at h
      · exact ih h
      · contradiction

theorem mem_loadQueries {q : Query} (h : q ∈ loadQueries plugins id) :
    q = .load id ∨ ∃ specifier, q = .resolve specifier (some id) := by
  rw [loadQueries] at h
  rcases List.mem_cons.1 h with rfl | h
  · exact Or.inl rfl
  · split at h
    · exact Or.inr (mem_importQueries h)
    · contradiction

theorem load_mem_loadQueries (plugins : List Plugin) (id : String) : .load id ∈ loadQueries plugins id :=
  List.mem_cons_self

theorem load_mem_of_resolve_mem {specifier : String} (h : .resolve specifier (some importer) ∈ queries plugins fuel s) :
    .load importer ∈ queries plugins fuel s := by
  induction fuel generalizing s with
  | zero => contradiction
  | succ fuel ih =>
    rw [queries] at h ⊢
    split at h
    · contradiction
    · next id queue _ =>
      rcases List.mem_append.1 h with h | h
      · rcases mem_loadQueries h with heq | ⟨_, heq⟩
        · contradiction
        · obtain ⟨-, himporter⟩ := Query.resolve.inj heq
          obtain rfl := Option.some.inj himporter
          exact List.mem_append_left _ (load_mem_loadQueries plugins importer)
      · refine List.mem_append_right _ ?_
        split at h
        · exact ih h
        · contradiction

/-- What is loaded was led to, when that is so of the queue at the start. -/
theorem led_of_load_mem (hqueue : ∀ id ∈ s.queue, Led plugins asked id) (hasked : queries plugins fuel s ⊆ asked)
    (h : .load id ∈ queries plugins fuel s) : Led plugins asked id := by
  -- Each module that is taken from the queue was led to, so what its imports add to the queue is.
  induction fuel generalizing s with
  | zero => contradiction
  | succ fuel ih =>
    rw [queries] at h hasked
    split at h
    · contradiction
    · next first queue hfirst =>
      rw [hfirst] at hasked hqueue
      dsimp only at hasked
      obtain ⟨hload, hrest⟩ := List.append_subset.1 hasked
      obtain ⟨hled, hmore⟩ := List.forall_mem_cons.1 hqueue
      rcases List.mem_append.1 h with h | h
      · rcases mem_loadQueries h with heq | ⟨_, heq⟩
        · exact Query.load.inj heq ▸ hled
        · contradiction
      · split at h
        · next s₁ hs₁ =>
          rw [hs₁] at hrest
          refine ih ?_ hrest h
          intro target htarget
          rcases (of_load hs₁).2 target htarget with hold | ⟨specifier, hmem, hspecifier⟩
          · exact hmore target hold
          · exact Led.imported hled (hload (load_mem_loadQueries plugins first)) (hload hmem) hspecifier
        · contradiction

/-- A run that succeeds adds the modules that it loads. -/
theorem mem_ids_run (h : run plugins fuel s = .ok s') :
    id ∈ s'.graph.ids ↔ id ∈ s.graph.ids ∨ .load id ∈ queries plugins fuel s := by
  induction fuel generalizing s with
  | zero =>
    rw [run] at h
    split at h
    · obtain rfl := Except.ok.inj h
      simp [queries]
    · contradiction
  | succ fuel ih =>
    rw [run] at h
    split at h
    · next hnil =>
      obtain rfl := Except.ok.inj h
      rw [queries_nil _ hnil]
      simp
    · next first queue hfirst =>
      obtain ⟨s₁, hs₁, hrest⟩ := bind_eq_ok.1 h
      have hids := (of_load hs₁).1
      have hload : .load id ∈ loadQueries plugins first ↔ id = first := by
        refine ⟨fun hmem => ?_, fun heq => heq ▸ load_mem_loadQueries plugins id⟩
        rcases mem_loadQueries hmem with heq | ⟨_, heq⟩
        · exact Query.load.inj heq
        · contradiction
      rw [ih hrest, hids, queries, hfirst]
      dsimp only
      rw [hs₁, List.mem_append, List.mem_append, List.mem_singleton, hload, or_assoc]

/-! ### What the answers decide -/

/-- Plugins that answer some queries alike and change texts alike. -/
structure Alike (asked : List Query) (plugins plugins' : List Plugin) : Prop where
  load : ∀ id, .load id ∈ asked → Plugins.load plugins id = Plugins.load plugins' id
  resolve : ∀ specifier importer, .resolve specifier importer ∈ asked →
    Plugins.resolve plugins specifier importer = Plugins.resolve plugins' specifier importer
  transform : ∀ code id, Plugins.transform plugins code id = Plugins.transform plugins' code id

variable {plugins' : List Plugin}

theorem Alike.mono {more : List Query} (h : Alike more plugins plugins') (hasked : asked ⊆ more) :
    Alike asked plugins plugins' :=
  ⟨fun id hid => h.load id (hasked hid), fun specifier importer hmem => h.resolve specifier importer (hasked hmem),
    h.transform⟩

theorem Alike.readModule (h : Alike asked plugins plugins') (hid : .load id ∈ asked) :
    readModule plugins id = readModule plugins' id := by
  simp only [Gathering.readModule, h.load id hid, h.transform]

theorem Alike.addImports (h : Alike (importQueries plugins importer imports) plugins plugins') (s : Gathering) :
    addImports plugins importer imports s = addImports plugins' importer imports s := by
  induction imports generalizing s with
  | nil => rfl
  | cons i imports ih =>
    have hfirst := h.resolve i.specifier (some importer) List.mem_cons_self
    unfold Gathering.addImports at ih ⊢
    rw [List.foldlM_cons, List.foldlM_cons, ← hfirst]
    cases hfound : Plugins.resolve plugins i.specifier (some importer) with
    | error e => rfl
    | ok found =>
      rw [importQueries, hfound] at h
      exact ih (h.mono (List.subset_cons_self ..)) _

theorem Alike.loaded (h : Alike (loadQueries plugins id) plugins plugins') (s : Gathering) :
    Gathering.load plugins s id = Gathering.load plugins' s id := by
  rw [load_eq, load_eq, ← h.readModule (load_mem_loadQueries plugins id)]
  cases hm : Gathering.readModule plugins id with
  | error e => rfl
  | ok m =>
    rw [loadQueries, hm] at h
    have himports := (h.mono (List.subset_cons_self ..)).addImports s
    simp only [bind, Except.bind, himports]

theorem Alike.run (h : Alike (queries plugins fuel s) plugins plugins') : run plugins fuel s = run plugins' fuel s := by
  induction fuel generalizing s with
  | zero => rfl
  | succ fuel ih =>
    rw [Gathering.run, Gathering.run]
    cases hqueue : s.queue with
    | nil => rfl
    | cons first queue =>
      rw [queries, hqueue] at h
      -- Both load the first module or fail alike; only if they load it are there further queries.
      have hload := (h.mono (List.subset_append_left ..)).loaded { s with queue := queue }
      dsimp only at h ⊢
      rw [← hload]
      cases hnext : Gathering.load plugins { s with queue := queue } first with
      | error e => rfl
      | ok s₁ =>
        rw [hnext] at h
        exact ih (h.mono (List.subset_append_right ..))

end Gathering

namespace Bundle

variable {plugins : List Plugin} {entry id : String} {inlineDynamic : Bool} {limit index : Nat} {s : Gathering}
  {b : Bundle}

/-- The queries that are made for an entry, in their order. -/
def queries (plugins : List Plugin) (entry : String) (limit : Nat) : List Query :=
  .resolve entry none :: match entryId plugins entry with
    | .ok id => Gathering.queries plugins limit (.start id)
    | .error _ => []

theorem entryId_eq_ok (h : entryId plugins entry = .ok id) :
    Plugins.resolve plugins entry none = .ok (some ⟨id, false⟩) := by
  obtain ⟨found, hfound, h⟩ := bind_eq_ok.1 h
  rw [mapError_eq_ok] at hfound
  split at h
  · obtain rfl := Except.ok.inj h
    exact hfound
  · contradiction

theorem led_of_mem_queries (h : .load id ∈ queries plugins entry limit) :
    Gathering.Led plugins (queries plugins entry limit) id := by
  have hall : queries plugins entry limit = .resolve entry none :: match entryId plugins entry with
    | .ok id => Gathering.queries plugins limit (.start id)
    | .error _ => [] := rfl
  cases hroot : entryId plugins entry with
  | error e =>
    rw [hall, hroot] at h
    simp at h
  | ok root =>
    rw [hroot] at hall
    have hled : Gathering.Led plugins (queries plugins entry limit) root :=
      Gathering.Led.entry List.mem_cons_self (entryId_eq_ok hroot)
    have hmem : .load id ∈ Gathering.queries plugins limit (.start root) := by
      rw [hall] at h
      exact (List.mem_cons.1 h).resolve_left Query.noConfusion
    refine Gathering.led_of_load_mem ?_ (hall ▸ List.subset_cons_self ..) hmem
    exact fun first hfirst => List.mem_singleton.1 hfirst ▸ hled

theorem load_mem_of_resolve_mem {specifier importer : String}
    (h : .resolve specifier (some importer) ∈ queries plugins entry limit) :
    .load importer ∈ queries plugins entry limit := by
  rw [queries] at h ⊢
  have hother : Query.resolve specifier (some importer) ≠ .resolve entry none := by simp
  have hmem := (List.mem_cons.1 h).resolve_left hother
  refine List.mem_cons_of_mem _ ?_
  split at hmem
  · exact Gathering.load_mem_of_resolve_mem hmem
  · contradiction

theorem mem_ids_gather (h : gather plugins entry limit = .ok (s, index)) :
    id ∈ s.graph.ids ↔ .load id ∈ queries plugins entry limit := by
  obtain ⟨root, hroot, h⟩ := bind_eq_ok.1 h
  obtain ⟨s₁, hrun, h⟩ := bind_eq_ok.1 h
  obtain ⟨rfl, -⟩ := Prod.mk.inj (Except.ok.inj h)
  rw [Gathering.mem_ids_run hrun, queries, hroot]
  simp [Gathering.start, ModuleGraph.ids]

/-- A bundle depends on nothing but the answers to its queries and on how texts are changed. -/
theorem ofEntry_congr {plugins' : List Plugin} (h : Gathering.Alike (queries plugins entry limit) plugins plugins')
    (inlineDynamic : Bool) :
    ofEntry plugins entry inlineDynamic limit = ofEntry plugins' entry inlineDynamic limit := by
  have hentry : entryId plugins entry = entryId plugins' entry := by
    rw [entryId, entryId, h.resolve entry none List.mem_cons_self]
  have hgather : gather plugins entry limit = gather plugins' entry limit := by
    rw [gather, gather, ← hentry]
    cases hroot : entryId plugins entry with
    | error e => rfl
    | ok root =>
      rw [queries, hroot] at h
      have hrun := (h.mono (List.subset_cons_self ..)).run
      simp only [bind, Except.bind, hrun]
  rw [ofEntry, ofEntry, hgather]

/-- A bundle was made from what was gathered, with the modules in this order. -/
structure MadeFrom (s : Gathering) (index : Nat) (modules : List Nat) (b : Bundle) : Prop where
  indices : modules.Perm (List.range s.graph.size)
  ids : b.modules.Perm s.graph.ids
  code : b.code = s.graph.chunkText modules index
  externals : b.externals = s.externals
  answered : s.unresolved = []

theorem exists_madeFrom (h : ofEntry plugins entry inlineDynamic limit = .ok b) :
    ∃ s index modules, gather plugins entry limit = .ok (s, index) ∧ MadeFrom s index modules b := by
  obtain ⟨⟨s, index⟩, hgather, h⟩ := bind_eq_ok.1 h
  obtain ⟨root, -, hgathered, hindex⟩ := gathered_of_gather hgather
  dsimp only at h
  split at h
  · next main hchunks =>
    have hperm := perm_of_chunks hgathered hindex hchunks
    split at h
    · next hanswered =>
      obtain rfl := Except.ok.inj h
      exact ⟨s, index, main.modules, hgather, hperm, ids_of_perm hperm, rfl, rfl, List.isEmpty_iff.1 hanswered⟩
    · contradiction
  · contradiction

/-- What plugins give under the id of a module of the bundle is the module that was gathered. -/
theorem MadeFrom.mem_modules {root : String} {modules : List Nat} {m : Module} (h : MadeFrom s index modules b)
    (hgathered : Gathered plugins root s) (hid : m.id ∈ b.modules) (hloads : Gathering.Loads plugins m) :
    m ∈ s.graph.modules := by
  obtain ⟨m', hm', heq⟩ := List.mem_map.1 (h.ids.mem_iff.1 hid)
  obtain rfl := (hgathered.loads m' hm').eq hloads heq
  exact hm'

/-- The modules of a bundle are those that were loaded. -/
theorem mem_modules_iff (h : ofEntry plugins entry inlineDynamic limit = .ok b) :
    id ∈ b.modules ↔ .load id ∈ queries plugins entry limit := by
  obtain ⟨s, index, modules, hgather, hmade⟩ := exists_madeFrom h
  exact hmade.ids.mem_iff.trans (mem_ids_gather hgather)

theorem nodup_modules (h : ofEntry plugins entry inlineDynamic limit = .ok b) : b.modules.Nodup := by
  obtain ⟨s, index, modules, hgather, hmade⟩ := exists_madeFrom h
  obtain ⟨root, -, hgathered, -⟩ := gathered_of_gather hgather
  exact hmade.ids.nodup_iff.2 hgathered.nodup

theorem exists_module (h : ofEntry plugins entry inlineDynamic limit = .ok b) (hid : id ∈ b.modules) :
    ∃ m, m.id = id ∧ Gathering.Loads plugins m := by
  obtain ⟨s, index, modules, hgather, hmade⟩ := exists_madeFrom h
  obtain ⟨root, -, hgathered, -⟩ := gathered_of_gather hgather
  obtain ⟨m, hm, hid⟩ := List.mem_map.1 (hmade.ids.mem_iff.1 hid)
  exact ⟨m, hid, hgathered.loads m hm⟩

theorem exists_of_map {α : Type} {made : Except Error Bundle} {f : Bundle → α} {a : α}
    (h : made.toOption.map f = some a) : ∃ b, made = .ok b ∧ f b = a := by
  cases made with
  | error e => contradiction
  | ok b => exact ⟨b, rfl, Option.some.inj h⟩

end Bundle

end LiveNotes
