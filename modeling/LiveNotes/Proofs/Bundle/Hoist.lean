import LiveNotes.Proofs.Bundle.Lookup
import LiveNotes.Proofs.Script.Lexing

/-! What a chunk imports from the page. The imports that it starts with can be read off its code, each for
another specifier, and the specifiers are those that plugins leave to the page; that a plugin may give an
external module another id makes a difference for `externals` alone. -/

namespace LiveNotes

open LiveNotes.Bundle

namespace Script

open Text

/-- A quoted text can be read off what starts with it. -/
theorem quoted_append_inj {s s' : String} {rest rest' : List Char}
    (h : (quoted s).toList ++ rest = (quoted s').toList ++ rest') : s = s' ∧ rest = rest' := by
  have hreads := (startsWith_quoted s rest).reads
  have hreads' := (startsWith_quoted s' rest').reads
  rw [← h] at hreads'
  obtain ⟨stop, hread⟩ := hreads _ 0 (Nat.lt_succ_self _)
  obtain ⟨stop', hread'⟩ := hreads' _ 0 (Nat.lt_succ_self _)
  obtain ⟨hkind, hplace⟩ := Prod.mk.inj (hread.symm.trans hread')
  exact ⟨(TokenKind.string.inj hkind).1, (Place.mk.inj hplace).1⟩

end Script

namespace Bundle

open ModuleGraph

/-! ### The first lines of a chunk -/

/-- A chunk starts with imports of the external modules `sources`, in their order, and with no other. -/
def Hoists (code : String) (sources : List String) : Prop :=
  ∃ rest, code = String.join (sources.zipIdx.map fun p => externalText p.1 p.2) ++ chunkHead ++ rest

theorem externalText_append_inj {x y : String} {n : Nat} {rest rest' : List Char}
    (h : (externalText x n).toList ++ rest = (externalText y n).toList ++ rest') : x = y ∧ rest = rest' := by
  have htext : ∀ specifier rest, (externalText specifier n).toList ++ rest =
      ("import * as " ++ externalName n ++ " from ").toList ++
        ((Text.quoted specifier).toList ++ (";\n".toList ++ rest)) := by
    intro specifier rest
    unfold externalText
    rw [String.toList_append, String.toList_append, List.append_assoc, List.append_assoc]
  rw [htext, htext] at h
  obtain ⟨hsame, hrest⟩ := Script.quoted_append_inj (List.append_cancel_left h)
  exact ⟨hsame, List.append_cancel_left hrest⟩

theorem externalText_append_ne (x : String) (n : Nat) {head : List Char} (hhead : head.head? = some 'c')
    (rest : List Char) : (externalText x n).toList ++ rest ≠ head := by
  rintro rfl
  rw [List.head?_append, head?_externalText] at hhead
  cases hhead

theorem sources_unique {sources sources' : List String} {n : Nat} {head head' : List Char}
    (hhead : head.head? = some 'c') (hhead' : head'.head? = some 'c')
    (h : (sources.zipIdx n).flatMap (fun p => (externalText p.1 p.2).toList) ++ head =
      (sources'.zipIdx n).flatMap (fun p => (externalText p.1 p.2).toList) ++ head') :
    sources = sources' := by
  -- A quoted specifier ends where its quotes do, and what is behind the imports starts with no import.
  induction sources generalizing sources' n with
  | nil =>
    cases sources' with
    | nil => rfl
    | cons y sources' =>
      rw [List.zipIdx_cons, List.flatMap_cons, List.append_assoc] at h
      exact absurd h.symm (externalText_append_ne y n hhead _)
  | cons x sources ih =>
    rw [List.zipIdx_cons, List.flatMap_cons, List.append_assoc] at h
    cases sources' with
    | nil => exact absurd h (externalText_append_ne x n hhead' _)
    | cons y sources' =>
      rw [List.zipIdx_cons, List.flatMap_cons, List.append_assoc] at h
      obtain ⟨rfl, hrest⟩ := externalText_append_inj h
      rw [ih hrest]

theorem head?_chunkHead_append (rest : List Char) : (chunkHead.toList ++ rest).head? = some 'c' := by
  rw [List.head?_append, head?_chunkHead]
  rfl

theorem Hoists.unique {code : String} {sources sources' : List String} (h : Hoists code sources)
    (h' : Hoists code sources') : sources = sources' := by
  obtain ⟨rest, rfl⟩ := h
  obtain ⟨rest', heq⟩ := h'
  have hlist := congrArg String.toList heq
  simp only [String.toList_append, String.toList_join, List.flatMap_map, List.append_assoc] at hlist
  exact sources_unique (head?_chunkHead_append _) (head?_chunkHead_append _) hlist

/-! ### What linking adds -/

/-- Specifiers with a property are added to a list that keeps each once. -/
structure Adds (P : String → Prop) (before after : List String) : Prop where
  nodup : before.Nodup → after.Nodup
  mem : ∀ x, x ∈ after ↔ x ∈ before ∨ P x

namespace Adds

variable {P Q : String → Prop} {before between after : List String}

theorem none (hP : ∀ x, ¬ P x) (before : List String) : Adds P before before :=
  ⟨id, fun x => ⟨Or.inl, fun h => h.resolve_right (hP x)⟩⟩

theorem trans (h : Adds P before between) (h' : Adds Q between after) : Adds (fun x => P x ∨ Q x) before after := by
  refine ⟨h'.nodup ∘ h.nodup, fun x => ?_⟩
  rw [h'.mem, h.mem, or_assoc]

theorem congr (h : Adds P before after) (hPQ : ∀ x, P x ↔ Q x) : Adds Q before after :=
  ⟨h.nodup, fun x => by rw [h.mem, hPQ]⟩

theorem numberOf (externals : List String) (specifier : String) :
    Adds (· = specifier) externals (Bundle.numberOf externals specifier).2 := by
  unfold Bundle.numberOf
  split
  · next n hn =>
    have hmem : specifier ∈ externals := by
      by_contra hnot
      rw [List.idxOf?_eq_none_iff.2 hnot] at hn
      contradiction
    exact ⟨id, fun x => ⟨Or.inl, fun h => h.elim id fun heq => heq ▸ hmem⟩⟩
  · next hnone =>
    have hnot : specifier ∉ externals := List.idxOf?_eq_none_iff.1 hnone
    refine ⟨fun hnodup => ?_, fun x => by rw [List.mem_append, List.mem_singleton]⟩
    exact List.nodup_append.2 ⟨hnodup, List.nodup_singleton _, fun a ha b hb heq =>
      hnot (List.mem_singleton.1 hb ▸ heq ▸ ha)⟩

end Adds

/-- The specifier of an item that names another module and is no call. -/
def LinkKind.static? (kind : LinkKind) : Option String := if kind.isDynamic then none else kind.specifier?

/-- An item, no call, of the module `importer` names a module that is not in the graph. -/
def Outer (g : ModuleGraph) (importer : String) (items : List LinkItem) (specifier : String) : Prop :=
  ∃ item ∈ items, item.kind.static? = some specifier ∧ g.resolve? importer specifier = none

theorem adds_target (g : ModuleGraph) (importer specifier : String) (externals : List String) :
    Adds (fun x => x = specifier ∧ g.resolve? importer specifier = none) externals
      (g.target importer specifier externals).2 := by
  unfold ModuleGraph.target
  cases hresolve : g.resolve? importer specifier with
  | some k => exact Adds.none (fun x h => Option.some_ne_none k h.2) externals
  | none => exact (Adds.numberOf externals specifier).congr fun x => (and_iff_left rfl).symm

theorem adds_add (g : ModuleGraph) (importer : String) (l : Linked) (item : LinkItem) :
    Adds (Outer g importer [item]) l.externals (l.add g importer item).externals := by
  obtain ⟨span, kind⟩ := item
  have hstatic : ∀ specifier, kind.static? = some specifier → ∀ x,
      (x = specifier ∧ g.resolve? importer specifier = none) ↔ Outer g importer [⟨span, kind⟩] x := by
    intro specifier hspecifier x
    simp only [Outer, List.mem_singleton, exists_eq_left, hspecifier, Option.some.injEq]
    constructor
    · rintro ⟨rfl, hnone⟩
      exact ⟨rfl, hnone⟩
    · rintro ⟨rfl, hnone⟩
      exact ⟨rfl, hnone⟩
  have hother : kind.static? = none → ∀ x, ¬ Outer g importer [⟨span, kind⟩] x := by
    rintro hnone x ⟨item, hitem, hsome, -⟩
    rw [List.mem_singleton.1 hitem, hnone] at hsome
    contradiction
  cases kind with
  | importNames specifier names => exact (adds_target g importer specifier _).congr (hstatic specifier rfl)
  | reExport specifier names => exact (adds_target g importer specifier _).congr (hstatic specifier rfl)
  | exportStar specifier asName =>
    cases asName with
    | none => exact (adds_target g importer specifier _).congr (hstatic specifier rfl)
    | some name => exact (adds_target g importer specifier _).congr (hstatic specifier rfl)
  | defaultExpr semicolonAt =>
    cases semicolonAt with
    | none => exact Adds.none (hother rfl) _
    | some at_ => exact Adds.none (hother rfl) _
  | remove => exact Adds.none (hother rfl) _
  | dynamicImport specifier =>
    have hkeeps : (l.add g importer ⟨span, .dynamicImport specifier⟩).externals = l.externals := by
      unfold Linked.add
      dsimp only
      split
      · rfl
      · rfl
    rw [hkeeps]
    exact Adds.none (hother rfl) _

theorem adds_foldl (g : ModuleGraph) (importer : String) (items : List LinkItem) (l : Linked) :
    Adds (Outer g importer items) l.externals (items.foldl (Linked.add g importer) l).externals := by
  induction items generalizing l with
  | nil => exact Adds.none (fun x ⟨item, hitem, _⟩ => absurd hitem List.not_mem_nil) _
  | cons item items ih =>
    refine ((adds_add g importer l item).trans (ih _)).congr fun x => ?_
    simp [Outer]

/-- The functions of a chunk number the external modules that their modules name. -/
theorem adds_bodyText (g : ModuleGraph) (modules : List Nat) (externals : List String) :
    Adds (fun x => ∃ i ∈ modules, ∃ m, g.get? i = some m ∧ Outer g m.id m.analysis.items x) externals
      (g.bodyText modules externals).2 := by
  induction modules generalizing externals with
  | nil => exact Adds.none (fun x ⟨i, hi, _⟩ => absurd hi List.not_mem_nil) _
  | cons i modules ih =>
    have hfirst : Adds (fun x => ∃ m, g.get? i = some m ∧ Outer g m.id m.analysis.items x) externals
        (g.moduleText externals i).2 := by
      unfold ModuleGraph.moduleText
      cases hm : g.get? i with
      | none => exact Adds.none (fun x ⟨m, hnone, _⟩ => Option.some_ne_none m hnone.symm) externals
      | some m =>
        have hlink : Adds (Outer g m.id m.analysis.items) externals (g.link externals m).externals :=
          adds_foldl g m.id m.analysis.items { getters := m.analysis.exports, externals := externals }
        exact hlink.congr fun x => by simp
    refine (hfirst.trans (ih _)).congr fun x => ?_
    simp

/-! ### Items and imports -/

/-- The items of an analysis that name other modules, calls apart, are its imports. -/
def Paired (a : Analysis) : Prop :=
  a.items.filterMap (·.kind.static?) = (a.imports.filter (!·.dynamic)).map (·.specifier)

theorem Paired.append {a a' : Analysis} (h : Paired a) (h' : Paired a') : Paired (a ++ a') := by
  have hitems : (a ++ a').items = a.items ++ a'.items := rfl
  have himports : (a ++ a').imports = a.imports ++ a'.imports := rfl
  rw [Paired, hitems, himports, List.filterMap_append, List.filter_append, List.map_append, h, h']

theorem paired_itemAnalysis (source : List Char) (t : Script.Tree) : Paired (itemAnalysis source t) := by
  unfold itemAnalysis
  split
  · rfl
  · rfl
  · rfl
  · rfl
  · unfold defaultExport
    split
    · rfl
    · rfl
  · rfl
  · rfl

theorem paired_dynamicAnalysis (calls : List (Script.Span × String)) : Paired (dynamicAnalysis calls) := by
  have hitems : (dynamicAnalysis calls).items.filterMap (·.kind.static?) = [] := by
    rw [dynamicAnalysis, List.filterMap_eq_nil_iff]
    intro item hitem
    obtain ⟨call, -, rfl⟩ := List.mem_map.1 hitem
    rfl
  have himports : (dynamicAnalysis calls).imports.filter (!·.dynamic) = [] := by
    rw [dynamicAnalysis, List.filter_eq_nil_iff]
    intro i hi
    obtain ⟨call, -, rfl⟩ := List.mem_map.1 hi
    exact Bool.noConfusion
  rw [Paired, hitems, himports, List.map_nil]

theorem paired_of_analyze {code id : String} {a : Analysis} (h : analyze code id = .ok a) : Paired a := by
  have hfold : ∀ (source : List Char) (ts : List Script.Tree) (a : Analysis), Paired a →
      Paired (ts.foldl (fun a t => a ++ itemAnalysis source t) a) := by
    intro source ts
    induction ts with
    | nil => exact fun a ha => ha
    | cons t ts ih => exact fun a ha => ih _ (ha.append (paired_itemAnalysis source t))
  unfold analyze at h
  split at h
  · contradiction
  · obtain rfl := Except.ok.inj h
    exact (hfold _ _ {} rfl).append (paired_dynamicAnalysis _)

theorem Paired.exists_item_iff {a : Analysis} (h : Paired a) (specifier : String) :
    (∃ item ∈ a.items, item.kind.static? = some specifier) ↔
      ∃ i ∈ a.imports, i.dynamic = false ∧ i.specifier = specifier := by
  rw [← List.mem_filterMap, show a.items.filterMap (·.kind.static?) = _ from h, List.mem_map]
  simp [and_assoc]

/-! ### Edges come from answers -/

end Bundle

namespace Gathering

variable {plugins : List Plugin} {importer id : String} {s s' : Gathering} {imports : List Import} {limit : Nat}

/-- Each edge is what plugins answer for its specifier. -/
def Sound (plugins : List Plugin) (s : Gathering) : Prop :=
  ∀ e ∈ s.graph.edges, Plugins.resolve plugins e.specifier (some e.importer) = .ok (some ⟨e.target, false⟩)

theorem Sound.addImport {i : Import} {found : Option Resolved} (h : Sound plugins s)
    (hfound : Plugins.resolve plugins i.specifier (some importer) = .ok found) :
    Sound plugins (s.addImport importer i found) := by
  rcases found with - | ⟨id, - | -⟩
  · exact h
  · have hedge : Sound plugins (s.withEdge (edgeFor importer i id)) := by
      intro e he
      rcases List.mem_append.1 he with he | he
      · exact h e he
      · rw [List.mem_singleton.1 he]
        exact hfound
    by_cases hknown : id ∈ s.known
    · rw [addImport_known i hknown]
      exact hedge
    · rw [addImport_new i hknown]
      exact hedge
  · obtain ⟨more, heq, -⟩ := s.addImport_external importer i id
    rw [heq]
    exact h

theorem Sound.addImports (h : Sound plugins s) (hs : addImports plugins importer imports s = .ok s') :
    Sound plugins s' := by
  induction imports generalizing s with
  | nil => exact Except.ok.inj hs ▸ h
  | cons i imports ih =>
    obtain ⟨found, hfound, hrest⟩ := addImports_cons hs
    exact ih (h.addImport hfound) hrest

theorem Sound.load (h : Sound plugins s) (hs : load plugins s id = .ok s') : Sound plugins s' := by
  rw [load_eq] at hs
  obtain ⟨m, -, hs⟩ := bind_eq_ok.1 hs
  obtain ⟨s₁, hs₁, hs⟩ := bind_eq_ok.1 hs
  obtain rfl := Except.ok.inj hs
  have hsound : Sound plugins s₁ := h.addImports hs₁
  exact hsound

theorem Sound.run (h : Sound plugins s) (hs : run plugins limit s = .ok s') : Sound plugins s' := by
  induction limit generalizing s with
  | zero =>
    rw [Gathering.run] at hs
    split at hs
    · exact Except.ok.inj hs ▸ h
    · contradiction
  | succ limit ih =>
    rw [Gathering.run] at hs
    split at hs
    · exact Except.ok.inj hs ▸ h
    · next id queue hqueue =>
      obtain ⟨s₁, hload, hrest⟩ := bind_eq_ok.1 hs
      have htaken : Sound plugins { s with queue := queue } := h
      exact ih (htaken.load hload) hrest

end Gathering

namespace Bundle

open ModuleGraph

variable {plugins : List Plugin} {entry : String} {inlineDynamic : Bool} {limit index : Nat} {s : Gathering}
  {b : Bundle}

theorem sound_of_gather (h : gather plugins entry limit = .ok (s, index)) : Gathering.Sound plugins s := by
  obtain ⟨root, -, h⟩ := bind_eq_ok.1 h
  obtain ⟨s₁, hrun, h⟩ := bind_eq_ok.1 h
  obtain ⟨rfl, -⟩ := Prod.mk.inj (Except.ok.inj h)
  have hstart : Gathering.Sound plugins (.start root) := fun e he => absurd he List.not_mem_nil
  exact hstart.run hrun

theorem exists_resolve? {g : ModuleGraph} {e : Edge} (he : e ∈ g.edges) (hids : e.importer ∈ g.ids ∧ e.target ∈ g.ids) :
    ∃ k, g.resolve? e.importer e.specifier = some k := by
  obtain ⟨k, hk⟩ := ModuleGraph.exists_indexOf? hids.2
  obtain ⟨m, hm, himporter⟩ := List.mem_map.1 hids.1
  have hany : g.modules.any (·.id == e.importer) = true := List.any_eq_true.2 ⟨m, hm, beq_iff_eq.2 himporter⟩
  have hmem : e ∈ (g.edges.filter fun e' => e'.importer == e.importer && e'.specifier == e.specifier).reverse :=
    List.mem_reverse.2 (List.mem_filter.2 ⟨he, by simp⟩)
  rw [ModuleGraph.resolve?, if_pos hany, ← Option.isSome_iff_exists, List.findSome?_isSome_iff]
  exact ⟨e, hmem, by rw [hk]; rfl⟩

/-- An import of a module of the bundle, no call, with the given specifier is answered by the given external id. -/
def LeftOut (plugins : List Plugin) (b : Bundle) (specifier id : String) : Prop :=
  ∃ m, m.id ∈ b.modules ∧ Gathering.Loads plugins m ∧
    (∃ i ∈ m.analysis.imports, i.dynamic = false ∧ i.specifier = specifier) ∧
      Plugins.resolve plugins specifier (some m.id) = .ok (some ⟨id, true⟩)

variable {specifier id : String}

/-- A static import that is left out is an item that the graph knows no module for. -/
theorem exists_outer_iff {modules : List Nat} (hgather : gather plugins entry limit = .ok (s, index))
    (hmade : MadeFrom s index modules b) :
    (∃ i ∈ modules, ∃ m, s.graph.get? i = some m ∧ Outer s.graph m.id m.analysis.items specifier) ↔
      ∃ id, LeftOut plugins b specifier id := by
  obtain ⟨_, -, hgathered, -⟩ := gathered_of_gather hgather
  have hpaired : ∀ m, Gathering.Loads plugins m → Paired m.analysis := by
    rintro m ⟨text, -, -, hanalysis⟩
    exact paired_of_analyze hanalysis
  constructor
  · -- Without an answer the bundle would be refused, and for a module there would be an edge.
    rintro ⟨k, -, m, hm, item, hitem, hstatic, hnone⟩
    have hmem : m ∈ s.graph.modules := List.mem_of_getElem? hm
    have hloads := hgathered.loads m hmem
    obtain ⟨i, hi, hdynamic, rfl⟩ := ((hpaired m hloads).exists_item_iff specifier).1 ⟨item, hitem, hstatic⟩
    obtain ⟨found, hfound, hkept⟩ := hgathered.answered m hmem i hi
    rcases found with - | ⟨id, - | -⟩
    · exact absurd hmade.answered hkept
    · obtain ⟨k, hk⟩ := exists_resolve? hkept (hgathered.edge _ hkept)
      rw [hnone] at hk
      contradiction
    · exact ⟨id, m, hmade.ids.mem_iff.2 (ModuleGraph.mem_ids_of_get? hm), hloads, ⟨i, hi, hdynamic, rfl⟩, hfound⟩
  · rintro ⟨id, m, hid, hloads, himport, hfound⟩
    obtain ⟨k, hk⟩ := List.getElem?_of_mem (hmade.mem_modules hgathered hid hloads)
    obtain ⟨item, hitem, hstatic⟩ := ((hpaired m hloads).exists_item_iff specifier).2 himport
    have hlt : k ∈ modules := hmade.indices.mem_iff.2 (List.mem_range.2 (ModuleGraph.lt_size_of_get? hk))
    refine ⟨k, hlt, m, hk, item, hitem, hstatic, ?_⟩
    cases hresolve : s.graph.resolve? m.id specifier with
    | none => rfl
    | some target =>
      obtain ⟨e, he, himporter, hspecifier, -⟩ := ModuleGraph.exists_edge_of_resolve? hresolve
      have hsound := sound_of_gather hgather e he
      rw [himporter, hspecifier, hfound] at hsound
      simp at hsound

/-- The specifiers that a chunk imports are those that are left out, each once. -/
theorem exists_sources (h : ofEntry plugins entry inlineDynamic limit = .ok b) : ∃ sources, Hoists b.code sources ∧
    sources.Nodup ∧ ∀ specifier, specifier ∈ sources ↔ ∃ id, LeftOut plugins b specifier id := by
  obtain ⟨s, index, modules, hgather, hmade⟩ := exists_madeFrom h
  have hadds := adds_bodyText s.graph modules []
  refine ⟨(s.graph.bodyText modules []).2, ⟨(s.graph.bodyText modules []).1 ++ s.graph.exportsText index, ?_⟩,
    hadds.nodup List.nodup_nil, fun specifier => ?_⟩
  · rw [hmade.code, ← String.append_assoc]
    rfl
  · rw [hadds.mem, exists_outer_iff hgather hmade]
    simp

/-- What the plugins for components leave to the page keeps its specifier. -/
theorem LeftOut.eq_of_components {store : Store} {transpiler : Transpiler} {globals : RuntimeGlobals}
    (h : LeftOut (components store transpiler globals) b specifier id) : id = specifier := by
  obtain ⟨m, -, -, -, hfound⟩ := h
  rw [resolve_components, VaultFiles.resolve] at hfound
  split at hfound
  · simp at hfound
  · split at hfound
    · simpa using hfound.symm
    · split at hfound
      · split at hfound
        · next path hpath =>
          cases hprobe : VaultFiles.probe store specifier path with
          | error e => simp [hprobe, Except.map] at hfound
          | ok c => simp [hprobe, Except.map] at hfound
        · simp at hfound
      · simp at hfound

theorem exists_leftOut_iff (h : ∀ specifier id, LeftOut plugins b specifier id → id = specifier) (x : String) :
    (∃ id, LeftOut plugins b x id) ↔ ∃ specifier, LeftOut plugins b specifier x := by
  constructor
  · rintro ⟨id, hleft⟩
    exact ⟨x, h x id hleft ▸ hleft⟩
  · rintro ⟨specifier, hleft⟩
    exact ⟨x, (h specifier x hleft).symm ▸ hleft⟩

theorem exists_sources_components {store : Store} {transpiler : Transpiler} {globals : RuntimeGlobals}
    (h : ofEntry (components store transpiler globals) entry inlineDynamic limit = .ok b) :
    ∃ sources, Hoists b.code sources ∧ sources.Nodup ∧
      ∀ id, id ∈ sources ↔ ∃ specifier, LeftOut (components store transpiler globals) b specifier id := by
  obtain ⟨sources, hhoists, hnodup, hsources⟩ := exists_sources h
  exact ⟨sources, hhoists, hnodup, fun id =>
    (hsources id).trans (exists_leftOut_iff (fun _ _ hleft => hleft.eq_of_components) id)⟩

theorem mem_externals_of_leftOut (h : ofEntry plugins entry inlineDynamic limit = .ok b)
    (hleft : LeftOut plugins b specifier id) : id ∈ b.externals := by
  obtain ⟨s, index, modules, hgather, hmade⟩ := exists_madeFrom h
  obtain ⟨_, -, hgathered, -⟩ := gathered_of_gather hgather
  obtain ⟨m, hid, hloads, ⟨i, hi, -, rfl⟩, hfound⟩ := hleft
  obtain ⟨found, hfound', hkept⟩ := hgathered.answered m (hmade.mem_modules hgathered hid hloads) i hi
  obtain rfl := Except.ok.inj (hfound.symm.trans hfound')
  rw [hmade.externals]
  exact hkept

/-- A chunk starts with one import for each specifier that plugins leave to the page, in the modules of the bundle and
calls apart, and with no other; the ids that plugins give for them are external modules of the bundle. The imports are
of these ids exactly when a specifier is left out just where it is an id itself that is given, as when plugins give no
other ids than the specifiers. -/
theorem hoists_iff (h : ofEntry plugins entry inlineDynamic limit = .ok b) :
    ∃ sources, (∀ sources', Hoists b.code sources' ↔ sources' = sources) ∧ sources.Nodup ∧
      (∀ specifier, specifier ∈ sources ↔ ∃ id, LeftOut plugins b specifier id) ∧
      (∀ specifier id, LeftOut plugins b specifier id → id ∈ b.externals) ∧
      ((∀ id, id ∈ sources ↔ ∃ specifier, LeftOut plugins b specifier id) ↔
        ∀ x, (∃ id, LeftOut plugins b x id) ↔ ∃ specifier, LeftOut plugins b specifier x) ∧
      ((∀ specifier id, LeftOut plugins b specifier id → id = specifier) →
        ∀ id, id ∈ sources ↔ ∃ specifier, LeftOut plugins b specifier id) := by
  obtain ⟨sources, hhoists, hnodup, hsources⟩ := exists_sources h
  refine ⟨sources, fun sources' => ⟨fun h' => h'.unique hhoists, fun heq => heq ▸ hhoists⟩, hnodup, hsources,
    fun specifier id hleft => mem_externals_of_leftOut h hleft, forall_congr' fun x => by rw [hsources], ?_⟩
  exact fun hsame id => (hsources id).trans (exists_leftOut_iff hsame id)

/-- One module with an import and an export of what is not in the table. -/
def outward : Plugin := ofTable [("a", "import x from 'https://x/y.js';\nexport * from 'z';")]

theorem hoists_iff_outward : ∃ b, ofEntry [outward] "a" false 1 = .ok b ∧ b.externals = ["https://x/y.js", "z"] ∧
    ∃ sources, (∀ sources', Hoists b.code sources' ↔ sources' = sources) ∧ sources.Nodup ∧
      ∀ specifier, specifier ∈ sources ↔ ∃ id, LeftOut [outward] b specifier id := by
  have hexternals : (ofEntry [outward] "a" false 1).toOption.map (·.externals) = some ["https://x/y.js", "z"] := by
    decide +kernel
  obtain ⟨b, hb, hexternals⟩ := exists_of_map hexternals
  obtain ⟨sources, hunique, hnodup, hsources, -⟩ := hoists_iff hb
  exact ⟨b, hb, hexternals, sources, hunique, hnodup, hsources⟩

/-- A plugin that knows one module, and another id for what that imports from the page. -/
def cdn : Plugin where
  name := "cdn"
  resolve specifier _ := .ok (some (if specifier = "react" then ⟨"https://esm.sh/react", true⟩ else ⟨specifier, false⟩))
  load _ := .ok (some "import React from 'react';\nexport default React;")

theorem leftOut_cdn {b : Bundle} (h : b.modules = ["index"]) : LeftOut [cdn] b "react" "https://esm.sh/react" := by
  have himports : (analyze "import React from 'react';\nexport default React;" "index").toOption.map (·.imports) =
      some [⟨"react", false, [⟨"default", "React"⟩]⟩] := by decide +kernel
  cases hanalysis : analyze "import React from 'react';\nexport default React;" "index" with
  | error e =>
    rw [hanalysis] at himports
    contradiction
  | ok a =>
    rw [hanalysis] at himports
    have hmem : ⟨"react", false, [⟨"default", "React"⟩]⟩ ∈ a.imports := by
      rw [show a.imports = _ from Option.some.inj himports]
      exact List.mem_cons_self
    refine ⟨⟨"index", "import React from 'react';\nexport default React;", a⟩, ?_, ⟨_, rfl, rfl, hanalysis⟩,
      ⟨_, hmem, rfl, rfl⟩, rfl⟩
    rw [h]
    exact List.mem_cons_self

theorem not_hoisted_cdn : ∃ b, ofEntry [cdn] "index" false 1 = .ok b ∧ LeftOut [cdn] b "react" "https://esm.sh/react" ∧
    ∃ sources, Hoists b.code sources ∧ "react" ∈ sources ∧ "https://esm.sh/react" ∉ sources := by
  have hmodules : (ofEntry [cdn] "index" false 1).toOption.map (·.modules) = some ["index"] := by decide +kernel
  obtain ⟨b, hb, hmodules⟩ := exists_of_map hmodules
  have hleft := leftOut_cdn hmodules
  obtain ⟨sources, hhoists, -, hsources⟩ := exists_sources hb
  refine ⟨b, hb, hleft, sources, hhoists, (hsources _).2 ⟨_, hleft⟩, fun hmem => ?_⟩
  obtain ⟨id, m, -, -, -, hfound⟩ := (hsources _).1 hmem
  have hinner : Plugins.resolve [cdn] "https://esm.sh/react" (some m.id) =
      .ok (some ⟨"https://esm.sh/react", false⟩) := rfl
  rw [hinner] at hfound
  simp at hfound

end Bundle

end LiveNotes
