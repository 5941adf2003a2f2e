import LiveNotes.Bundle
import LiveNotes.Proofs.Bundle.Reach
import Mathlib.Data.List.Nodup

/-! What is gathered for an entry. Each module that the entry needs is loaded once, in whatever circles the
modules import each other, and each import that a plugin knows of is an edge between two of them or names
an external module. -/

namespace LiveNotes

open LiveNotes.Bundle

theorem bind_eq_ok {ε α β : Type} {x : Except ε α} {f : α → Except ε β} {b : β} :
    x >>= f = .ok b ↔ ∃ a, x = .ok a ∧ f a = .ok b := by
  cases x with
  | error e => exact ⟨fun h => (nomatch h), fun ⟨_, h, _⟩ => (nomatch h)⟩
  | ok a => exact ⟨fun h => ⟨a, rfl, h⟩, fun ⟨_, h, hf⟩ => Except.ok.inj h ▸ hf⟩

theorem mapError_eq_ok {ε ε' α : Type} {x : Except ε α} {f : ε → ε'} {a : α} :
    x.mapError f = .ok a ↔ x = .ok a := by
  cases x with
  | error e => exact ⟨fun h => (nomatch h), fun h => (nomatch h)⟩
  | ok b => exact ⟨fun h => congrArg _ (Except.ok.inj h), fun h => congrArg _ (Except.ok.inj h)⟩

namespace Gathering

variable {plugins : List Plugin} {root importer id : String} {s s' : Gathering} {m : Module} {i : Import}
  {found : Option Resolved}

/-- Plugins give the text of a module, which is analysed. -/
def Loads (plugins : List Plugin) (m : Module) : Prop :=
  ∃ text, Plugins.load plugins m.id = .ok (some text) ∧
    Plugins.transform plugins text m.id = .ok m.source ∧ analyze m.source m.id = .ok m.analysis

/-- The modules that are loaded for the module `root`: that one, and what plugins resolve an import of such
a module to. -/
inductive Needed (plugins : List Plugin) (root : String) : String → Prop
  | root : Needed plugins root root
  | imported {m : Module} {i : Import} {id : String} : Needed plugins root m.id → Loads plugins m →
      i ∈ m.analysis.imports → Plugins.resolve plugins i.specifier (some m.id) = .ok (some ⟨id, false⟩) →
      Needed plugins root id

/-- What plugins say of an import is kept. -/
def Answered (plugins : List Plugin) (s : Gathering) (importer : String) (i : Import) : Prop :=
  ∃ found, Plugins.resolve plugins i.specifier (some importer) = .ok found ∧
    match found with
    | none => s.unresolved ≠ []
    | some ⟨id, true⟩ => id ∈ s.externals
    | some ⟨id, false⟩ => ⟨importer, i.specifier, id, i.dynamic⟩ ∈ s.graph.edges

/-- How the gathering for `root` stands, with the modules in `hand` being loaded: nothing is known that is
not needed, and of each loaded module all imports are answered. -/
structure Gathers (plugins : List Plugin) (root : String) (hand : List String) (s : Gathering) : Prop where
  nodup : (s.graph.ids ++ hand ++ s.queue).Nodup
  known : ∀ id, id ∈ s.known ↔ id ∈ s.graph.ids ++ hand ++ s.queue
  root_known : root ∈ s.known
  needed : ∀ id ∈ s.known, Needed plugins root id
  loads : ∀ m ∈ s.graph.modules, Loads plugins m
  edge : ∀ e ∈ s.graph.edges, e.importer ∈ s.graph.ids ++ hand ∧ e.target ∈ s.known
  answered : ∀ m ∈ s.graph.modules, ∀ i ∈ m.analysis.imports, Answered plugins s m.id i

/-! ### Answers are kept -/

/-- The edge for an import of `importer` that is resolved to the module `id`. -/
def edgeFor (importer : String) (i : Import) (id : String) : Edge := ⟨importer, i.specifier, id, i.dynamic⟩

def withEdge (s : Gathering) (e : Edge) : Gathering :=
  { s with graph := { s.graph with edges := s.graph.edges ++ [e] } }

theorem addImport_none (s : Gathering) (importer : String) (i : Import) :
    ∃ text, s.addImport importer i none = { s with unresolved := s.unresolved ++ [text] } := ⟨_, rfl⟩

theorem addImport_external (s : Gathering) (importer : String) (i : Import) (id : String) :
    ∃ more, s.addImport importer i (some ⟨id, true⟩) = { s with externals := s.externals ++ more } ∧
      (id ∈ s.externals ∧ more = [] ∨ id ∉ s.externals ∧ more = [id]) := by
  by_cases h : id ∈ s.externals
  · refine ⟨[], ?_, Or.inl ⟨h, rfl⟩⟩
    rw [List.append_nil]
    exact if_pos (List.contains_iff_mem.2 h)
  · exact ⟨[id], if_neg (mt List.contains_iff_mem.1 h), Or.inr ⟨h, rfl⟩⟩

theorem addImport_known (i : Import) (h : id ∈ s.known) :
    s.addImport importer i (some ⟨id, false⟩) = s.withEdge (edgeFor importer i id) :=
  if_pos (List.contains_iff_mem.2 h)

theorem addImport_new (i : Import) (h : id ∉ s.known) :
    s.addImport importer i (some ⟨id, false⟩) =
      { s.withEdge (edgeFor importer i id) with known := s.known ++ [id], queue := s.queue ++ [id] } :=
  if_neg (mt List.contains_iff_mem.1 h)

/-- What has been said of imports is not taken back. -/
structure Extends (s s' : Gathering) : Prop where
  modules : s.graph.modules = s'.graph.modules
  edges : s.graph.edges ⊆ s'.graph.edges
  externals : s.externals ⊆ s'.externals
  unresolved : s.unresolved ≠ [] → s'.unresolved ≠ []

theorem Extends.refl (s : Gathering) : Extends s s :=
  ⟨rfl, List.Subset.refl _, List.Subset.refl _, id⟩

theorem Extends.trans {s₁ s₂ s₃ : Gathering} (h : Extends s₁ s₂) (h' : Extends s₂ s₃) : Extends s₁ s₃ :=
  ⟨h.modules.trans h'.modules, List.Subset.trans h.edges h'.edges,
    List.Subset.trans h.externals h'.externals, h'.unresolved ∘ h.unresolved⟩

theorem extends_addImport (s : Gathering) (importer : String) (i : Import) (found : Option Resolved) :
    Extends s (s.addImport importer i found) := by
  have hkeep : ∀ {α : Type} (l more : List α), l ⊆ l ++ more :=
    fun l more => List.subset_append_left l more
  rcases found with - | ⟨id, - | -⟩
  · obtain ⟨text, heq⟩ := s.addImport_none importer i
    rw [heq]
    exact ⟨rfl, List.Subset.refl _, List.Subset.refl _, fun _ => List.append_ne_nil_of_right_ne_nil _ (by simp)⟩
  · by_cases h : id ∈ s.known
    · rw [addImport_known i h]
      exact ⟨rfl, hkeep _ _, List.Subset.refl _, fun h => h⟩
    · rw [addImport_new i h]
      exact ⟨rfl, hkeep _ _, List.Subset.refl _, fun h => h⟩
  · obtain ⟨more, heq, -⟩ := s.addImport_external importer i id
    rw [heq]
    exact ⟨rfl, List.Subset.refl _, hkeep _ _, fun h => h⟩

theorem Answered.extends (h : Answered plugins s importer i) (hs : Extends s s') :
    Answered plugins s' importer i := by
  obtain ⟨found, hfound, hkept⟩ := h
  refine ⟨found, hfound, ?_⟩
  rcases found with - | ⟨id, - | -⟩
  · exact hs.unresolved hkept
  · exact hs.edges hkept
  · exact hs.externals hkept

theorem answered_addImport (h : Plugins.resolve plugins i.specifier (some importer) = .ok found) :
    Answered plugins (s.addImport importer i found) importer i := by
  refine ⟨found, h, ?_⟩
  rcases found with - | ⟨id, - | -⟩
  · exact List.append_ne_nil_of_right_ne_nil _ (by simp)
  · have hmem : edgeFor importer i id ∈ s.graph.edges ++ [edgeFor importer i id] :=
      List.mem_append_right _ List.mem_cons_self
    by_cases hid : id ∈ s.known
    · rw [addImport_known i hid]
      exact hmem
    · rw [addImport_new i hid]
      exact hmem
  · obtain ⟨more, heq, ⟨hid, rfl⟩ | ⟨-, rfl⟩⟩ := s.addImport_external importer i id
    · rw [heq]
      exact List.mem_append_left _ hid
    · rw [heq]
      exact List.mem_append_right _ List.mem_cons_self

/-! ### A module is loaded -/

theorem Gathers.addImport (h : Gathers plugins root [m.id] s) (hneeded : Needed plugins root m.id)
    (hm : Loads plugins m) (hi : i ∈ m.analysis.imports)
    (hfound : Plugins.resolve plugins i.specifier (some m.id) = .ok found) :
    Gathers plugins root [m.id] (s.addImport m.id i found) := by
  have hanswered : ∀ m' ∈ s.graph.modules, ∀ i' ∈ m'.analysis.imports,
      Answered plugins (s.addImport m.id i found) m'.id i' :=
    fun m' hm' i' hi' => (h.answered m' hm' i' hi').extends (extends_addImport s m.id i found)
  rcases found with - | ⟨id, - | -⟩
  · exact ⟨h.nodup, h.known, h.root_known, h.needed, h.loads, h.edge, hanswered⟩
  · have hid : Needed plugins root id := Needed.imported hneeded hm hi hfound
    have himporter : m.id ∈ s.graph.ids ++ [m.id] := List.mem_append_right _ List.mem_cons_self
    by_cases hknown : id ∈ s.known
    · rw [addImport_known i hknown] at hanswered ⊢
      refine ⟨h.nodup, h.known, h.root_known, h.needed, h.loads, ?_, hanswered⟩
      intro e he
      rcases List.mem_append.1 he with he | he
      · exact h.edge e he
      · rw [List.mem_singleton.1 he]
        exact ⟨himporter, hknown⟩
    · rw [addImport_new i hknown] at hanswered ⊢
      have hnew : id ∉ s.graph.ids ++ [m.id] ++ s.queue := fun hmem => hknown ((h.known id).2 hmem)
      refine ⟨?_, ?_, List.mem_append_left _ h.root_known, ?_, h.loads, ?_, hanswered⟩
      · have hall : (s.graph.ids ++ [m.id] ++ s.queue ++ [id]).Nodup :=
          List.nodup_append.2 ⟨h.nodup, List.nodup_singleton id, fun a ha b hb => by
            rw [List.mem_singleton.1 hb]
            exact fun heq => hnew (heq ▸ ha)⟩
        rwa [List.append_assoc] at hall
      · intro id'
        have hiff := h.known id'
        simp only [List.mem_append, List.mem_singleton] at hiff ⊢
        rw [hiff]
        exact or_assoc
      · intro id' hid'
        rcases List.mem_append.1 hid' with hid' | hid'
        · exact h.needed id' hid'
        · exact List.mem_singleton.1 hid' ▸ hid
      · intro e he
        rcases List.mem_append.1 he with he | he
        · exact (h.edge e he).imp_right (List.mem_append_left _)
        · rw [List.mem_singleton.1 he]
          exact ⟨himporter, List.mem_append_right _ List.mem_cons_self⟩
  · obtain ⟨more, heq, -⟩ := s.addImport_external m.id i id
    rw [heq] at hanswered ⊢
    exact ⟨h.nodup, h.known, h.root_known, h.needed, h.loads, h.edge, hanswered⟩

/-- The imports of a module, one after the other. -/
theorem Gathers.addImports {imports : List Import} (h : Gathers plugins root [m.id] s)
    (hneeded : Needed plugins root m.id) (hm : Loads plugins m) (hi : imports ⊆ m.analysis.imports)
    (hs : imports.foldlM (fun s i => do
      let found ← (Plugins.resolve plugins i.specifier (some m.id)).mapError PluginError.toError
      pure (s.addImport m.id i found)) s = .ok s') :
    Gathers plugins root [m.id] s' ∧ Extends s s' ∧ ∀ i ∈ imports, Answered plugins s' m.id i := by
  induction imports generalizing s with
  | nil =>
    obtain rfl := Except.ok.inj hs
    exact ⟨h, Extends.refl s, fun _ h => absurd h List.not_mem_nil⟩
  | cons i imports ih =>
    rw [List.foldlM_cons] at hs
    obtain ⟨s₁, hfirst, hrest⟩ := bind_eq_ok.1 hs
    obtain ⟨found, hfound, hs₁⟩ := bind_eq_ok.1 hfirst
    obtain rfl := Except.ok.inj hs₁
    rw [mapError_eq_ok] at hfound
    obtain ⟨hi, hmore⟩ := List.cons_subset.1 hi
    have hnext := h.addImport hneeded hm hi hfound
    obtain ⟨hgathers, hextends, hanswered⟩ := ih hnext hmore hrest
    refine ⟨hgathers, (extends_addImport s m.id i found).trans hextends, ?_⟩
    intro i' hi'
    rcases List.mem_cons.1 hi' with rfl | hi'
    · exact (answered_addImport hfound).extends hextends
    · exact hanswered i' hi'

theorem load_eq_ok (h : load plugins s id = .ok s') :
    ∃ m s₁, m.id = id ∧ Loads plugins m ∧ m.analysis.imports.foldlM (fun s i => do
      let found ← (Plugins.resolve plugins i.specifier (some m.id)).mapError PluginError.toError
      pure (s.addImport m.id i found)) s = .ok s₁ ∧ s' = { s₁ with graph := s₁.graph.add m } := by
  obtain ⟨text?, htext, h⟩ := bind_eq_ok.1 h
  cases text? with
  | none => contradiction
  | some text =>
    obtain ⟨code, hcode, h⟩ := bind_eq_ok.1 h
    obtain ⟨analysis, hanalysis, h⟩ := bind_eq_ok.1 h
    obtain ⟨s₁, hs₁, h⟩ := bind_eq_ok.1 h
    rw [mapError_eq_ok] at htext hcode hanalysis
    exact ⟨⟨id, code, analysis⟩, s₁, rfl, ⟨text, htext, hcode, hanalysis⟩, hs₁, (Except.ok.inj h).symm⟩

theorem Gathers.load {queue : List String} (h : Gathers plugins root [] s) (hqueue : s.queue = id :: queue)
    (hs : load plugins { s with queue := queue } id = .ok s') : Gathers plugins root [] s' := by
  obtain ⟨m, s₁, rfl, hm, hs₁, rfl⟩ := load_eq_ok hs
  have hlist : s.graph.ids ++ [] ++ s.queue = s.graph.ids ++ [m.id] ++ queue := by simp [hqueue]
  have hneeded : Needed plugins root m.id := by
    refine h.needed _ ((h.known _).2 ?_)
    rw [hlist]
    simp
  have hhand : Gathers plugins root [m.id] { s with queue := queue } := by
    refine ⟨hlist ▸ h.nodup, fun id => hlist ▸ h.known id, h.root_known, h.needed, h.loads, ?_, ?_⟩
    · intro e he
      exact (h.edge e he).imp_left fun hmem => List.mem_append_left _ (by simpa using hmem)
    · exact fun m' hm' i' hi' => (h.answered m' hm' i' hi').extends ⟨rfl, fun _ h => h, fun _ h => h, fun h => h⟩
  obtain ⟨hgathers, hextends, hanswered⟩ := hhand.addImports hneeded hm (List.Subset.refl _) hs₁
  have hids : (s₁.graph.add m).ids ++ [] = s₁.graph.ids ++ [m.id] := by simp
  have hkeep : ∀ {importer : String} {i : Import}, Answered plugins s₁ importer i →
      Answered plugins { s₁ with graph := s₁.graph.add m } importer i := fun h => h
  refine ⟨hids ▸ hgathers.nodup, fun id => hids ▸ hgathers.known id, hgathers.root_known, hgathers.needed, ?_,
    fun e he => hids ▸ hgathers.edge e he, ?_⟩
  · intro m' hm'
    rcases List.mem_append.1 hm' with hm' | hm'
    · exact hgathers.loads m' hm'
    · exact List.mem_singleton.1 hm' ▸ hm
  · intro m' hm' i' hi'
    rcases List.mem_append.1 hm' with hm' | hm'
    · exact hkeep (hgathers.answered m' hm' i' hi')
    · obtain rfl := List.mem_singleton.1 hm'
      exact hkeep (hanswered i' hi')

/-! ### The whole of it -/

theorem gathers_start (plugins : List Plugin) (root : String) : Gathers plugins root [] (start root) := by
  refine ⟨List.nodup_singleton root, fun id => Iff.rfl, List.mem_singleton_self root, ?_, ?_, ?_, ?_⟩
  · intro id hid
    rw [List.mem_singleton.1 hid]
    exact Needed.root
  · exact fun _ h => absurd h List.not_mem_nil
  · exact fun _ h => absurd h List.not_mem_nil
  · exact fun _ h => absurd h List.not_mem_nil

theorem Gathers.run {limit : Nat} (h : Gathers plugins root [] s) (hs : run plugins limit s = .ok s') :
    Gathers plugins root [] s' ∧ s'.queue = [] := by
  induction limit generalizing s with
  | zero =>
    rw [Gathering.run] at hs
    split at hs
    · next hqueue => exact Except.ok.inj hs ▸ ⟨h, hqueue⟩
    · contradiction
  | succ limit ih =>
    rw [Gathering.run] at hs
    split at hs
    · next hqueue => exact Except.ok.inj hs ▸ ⟨h, hqueue⟩
    · next id queue hqueue =>
      obtain ⟨s₁, hload, hrest⟩ := bind_eq_ok.1 hs
      exact ih (h.load hqueue hload) hrest

end Gathering

/-- The modules that were gathered for the module `root`: those it needs, each once, and between them the
edges for all their imports. -/
structure Gathered (plugins : List Plugin) (root : String) (s : Gathering) : Prop where
  nodup : s.graph.ids.Nodup
  mem_ids_iff : ∀ id, id ∈ s.graph.ids ↔ Gathering.Needed plugins root id
  loads : ∀ m ∈ s.graph.modules, Gathering.Loads plugins m
  edge : ∀ e ∈ s.graph.edges, e.importer ∈ s.graph.ids ∧ e.target ∈ s.graph.ids
  answered : ∀ m ∈ s.graph.modules, ∀ i ∈ m.analysis.imports, Gathering.Answered plugins s m.id i

namespace Gathering

variable {plugins : List Plugin} {root importer id : String} {s : Gathering}

theorem Loads.eq {m m' : Module} (h : Loads plugins m) (h' : Loads plugins m') (hid : m.id = m'.id) : m = m' := by
  obtain ⟨id, source, analysis⟩ := m
  obtain ⟨id', source', analysis'⟩ := m'
  obtain rfl : id = id' := hid
  obtain ⟨text, htext, hsource, hanalysis⟩ := h
  obtain ⟨text', htext', hsource', hanalysis'⟩ := h'
  obtain rfl := Option.some.inj (Except.ok.inj (htext.symm.trans htext'))
  obtain rfl : source = source' := Except.ok.inj (hsource.symm.trans hsource')
  obtain rfl : analysis = analysis' := Except.ok.inj (hanalysis.symm.trans hanalysis')
  rfl

theorem Gathers.gathered (h : Gathers plugins root [] s) (hqueue : s.queue = []) :
    Gathered plugins root s := by
  have hknown : ∀ id, id ∈ s.known ↔ id ∈ s.graph.ids := by
    intro id
    rw [h.known, hqueue, List.append_nil, List.append_nil]
  refine ⟨by simpa [hqueue] using h.nodup, ?_, h.loads, ?_, h.answered⟩
  · intro id
    refine ⟨fun hid => h.needed id ((hknown id).2 hid), fun hneeded => ?_⟩
    induction hneeded with
    | root => exact (hknown root).1 h.root_known
    | @imported m i id _ hm hi hfound ih =>
      obtain ⟨m', hm', hid⟩ := List.mem_map.1 ih
      obtain rfl := (h.loads m' hm').eq hm hid
      obtain ⟨found, hfound', hkept⟩ := h.answered m' hm' i hi
      obtain rfl := Except.ok.inj (hfound.symm.trans hfound')
      exact (hknown id).1 (h.edge _ hkept).2
  · intro e he
    obtain ⟨himporter, htarget⟩ := h.edge e he
    exact ⟨by simpa using himporter, (hknown _).1 htarget⟩

end Gathering

namespace Bundle

variable {plugins : List Plugin} {entry : String} {limit index : Nat} {s : Gathering}

theorem gathered_of_gather (h : gather plugins entry limit = .ok (s, index)) :
    ∃ root, entryId plugins entry = .ok root ∧ Gathered plugins root s ∧
      s.graph.indexOf? root = some index := by
  obtain ⟨root, hroot, h⟩ := bind_eq_ok.1 h
  obtain ⟨s₁, hrun, h⟩ := bind_eq_ok.1 h
  obtain ⟨rfl, hindex⟩ := Prod.mk.inj (Except.ok.inj h)
  obtain ⟨hgathers, hqueue⟩ := (Gathering.gathers_start plugins root).run hrun
  have hgathered := hgathers.gathered hqueue
  obtain ⟨k, hk⟩ := ModuleGraph.exists_indexOf? ((hgathered.mem_ids_iff root).2 Gathering.Needed.root)
  rw [hk] at hindex
  exact ⟨root, hroot, hgathered, hindex ▸ hk⟩

end Bundle

end LiveNotes
