import LiveNotes.Bundle.ChunkText
import LiveNotes.Proofs.Bundle.Reach

/-! The text of a chunk in its parts. Each module becomes a wrapper, in which an item is replaced by
statements for the exports of the one module or external module that it names. -/

namespace LiveNotes.Bundle

/-- What an item names: another module by a specifier. -/
def LinkKind.specifier? : LinkKind → Option String
  | .importNames specifier _ | .reExport specifier _ | .exportStar specifier _ | .dynamicImport specifier =>
    some specifier
  | .defaultExpr _ | .remove => none

def LinkKind.isDynamic : LinkKind → Bool
  | .dynamicImport _ => true
  | _ => false

/-- The names of another module that an item exports under names of its own. -/
def LinkKind.passed : LinkKind → List String
  | .reExport _ names => names.map (·.here)
  | .exportStar _ (some asName) => [asName]
  | _ => []

/-- The edits that replace an item, with `target` for the exports of what it names, in a module where names
were taken from `sources` others so far. -/
def LinkItem.edits (item : LinkItem) (target : String) (sources : Nat) : List Edit :=
  let edit (text : String) : Edit := ⟨item.span.start, item.span.stop, text⟩
  match item.kind with
  | .importNames _ names => [edit (importText target names)]
  | .reExport _ _ | .exportStar _ (some _) => [edit (bindText (reExportName sources) target)]
  | .exportStar _ none => [edit ("__exportStar(exports, " ++ target ++ ");")]
  | .defaultExpr semicolonAt =>
    edit ("const " ++ defaultBinding ++ " = ") :: semicolonAt.toList.map fun at_ => ⟨at_, at_, ";"⟩
  | .remove => [edit ""]
  | .dynamicImport _ => [edit ("Promise.resolve().then(() => " ++ target ++ ")")]

/-- The names that a module exports itself: its own and those it takes from others by name. -/
def Module.names (m : Module) : List String :=
  m.analysis.exports.map (·.1) ++ m.analysis.items.flatMap (·.kind.passed)

/-- The expressions for what an item of the module `importer` names: the call for a module of the graph, the
variable of an external one, which a call for a module leaves alone. -/
inductive Expression (g : ModuleGraph) (importer : String) (item : LinkItem) : String → Prop
  | inner {specifier : String} {k : Nat} : item.kind.specifier? = some specifier →
      g.resolve? importer specifier = some k → Expression g importer item (requireText k)
  | outer {specifier : String} (n : Nat) : item.kind.specifier? = some specifier →
      g.resolve? importer specifier = none → item.kind.isDynamic = false →
      Expression g importer item (externalName n)
  | nothing : item.kind.specifier? = none → Expression g importer item ""

namespace ModuleGraph

variable {g : ModuleGraph} {m : Module} {importer specifier : String} {externals : List String} {i : Nat}

theorem target_cases (g : ModuleGraph) (importer specifier : String) (externals : List String) :
    (∃ k, g.resolve? importer specifier = some k ∧ (g.target importer specifier externals).1 = requireText k) ∨
      g.resolve? importer specifier = none ∧
        ∃ n, (g.target importer specifier externals).1 = externalName n := by
  unfold target
  split
  · next k hk => exact Or.inl ⟨k, hk, rfl⟩
  · next hnone => exact Or.inr ⟨hnone, _, rfl⟩

theorem expression_target {item : LinkItem} (h : item.kind.specifier? = some specifier)
    (hstatic : item.kind.isDynamic = false) (externals : List String) :
    Expression g importer item (g.target importer specifier externals).1 := by
  obtain ⟨k, hk, htext⟩ | ⟨hnone, n, htext⟩ := g.target_cases importer specifier externals
  · exact htext ▸ Expression.inner h hk
  · exact htext ▸ Expression.outer n h hnone hstatic

end ModuleGraph

namespace Linked

variable {g : ModuleGraph} {importer : String} {l : Linked} {item : LinkItem}

/-- A linked item leaves its edits, for one of its expressions, behind those before; a call for a module
that the graph does not know leaves none. -/
theorem edits_add (g : ModuleGraph) (importer : String) (l : Linked) (item : LinkItem) :
    (∃ specifier, item.kind = .dynamicImport specifier ∧ g.resolve? importer specifier = none ∧
      (l.add g importer item).edits = l.edits) ∨
      ∃ target, Expression g importer item target ∧
        (l.add g importer item).edits = l.edits ++ item.edits target l.sources := by
  obtain ⟨span, kind⟩ := item
  cases kind with
  | importNames specifier names =>
    exact Or.inr ⟨_, ModuleGraph.expression_target rfl rfl l.externals, rfl⟩
  | reExport specifier names =>
    exact Or.inr ⟨_, ModuleGraph.expression_target rfl rfl l.externals, rfl⟩
  | exportStar specifier asName =>
    cases asName with
    | none => exact Or.inr ⟨_, ModuleGraph.expression_target rfl rfl l.externals, rfl⟩
    | some name => exact Or.inr ⟨_, ModuleGraph.expression_target rfl rfl l.externals, rfl⟩
  | defaultExpr semicolonAt =>
    refine Or.inr ⟨"", Expression.nothing rfl, ?_⟩
    cases semicolonAt with
    | none => rfl
    | some at_ => exact List.append_assoc ..
  | remove => exact Or.inr ⟨"", Expression.nothing rfl, rfl⟩
  | dynamicImport specifier =>
    cases hk : g.resolve? importer specifier with
    | none =>
      refine Or.inl ⟨specifier, rfl, hk, ?_⟩
      simp only [add, hk]
    | some k =>
      refine Or.inr ⟨requireText k, Expression.inner rfl hk, ?_⟩
      simp only [add, hk]
      rfl

theorem names_add (g : ModuleGraph) (importer : String) (l : Linked) (item : LinkItem) :
    (l.add g importer item).getters.map Prod.fst = l.getters.map Prod.fst ++ item.kind.passed := by
  obtain ⟨span, kind⟩ := item
  cases kind with
  | reExport specifier names =>
    have hnames : (names.map fun n => (n.here, reExportName l.sources ++ "[" ++ Text.quoted n.imported ++ "]")).map
        Prod.fst = names.map (·.here) := List.map_map
    exact List.map_append.trans (congrArg _ hnames)
  | exportStar specifier asName =>
    cases asName with
    | none => exact (List.append_nil _).symm
    | some name => exact List.map_append
  | defaultExpr semicolonAt =>
    cases semicolonAt with
    | none => exact (List.append_nil _).symm
    | some at_ => exact (List.append_nil _).symm
  | dynamicImport specifier =>
    cases hk : g.resolve? importer specifier with
    | none => simp only [add, hk, LinkKind.passed, List.append_nil]
    | some k => simp only [add, hk, LinkKind.passed, List.append_nil, edit]
  | importNames specifier names => exact (List.append_nil _).symm
  | remove => exact (List.append_nil _).symm

theorem mem_edits_foldl {items : List LinkItem} {e : Edit} (h : e ∈ (items.foldl (add g importer) l).edits) :
    e ∈ l.edits ∨ ∃ item ∈ items, ∃ target sources, Expression g importer item target ∧
      e ∈ item.edits target sources := by
  induction items generalizing l with
  | nil => exact Or.inl h
  | cons item items ih =>
    rcases ih h with hadd | ⟨item', hitem', hrest⟩
    · rcases edits_add g importer l item with ⟨_, -, -, hsame⟩ | ⟨target, htarget, hmore⟩
      · exact Or.inl (hsame ▸ hadd)
      · rw [hmore] at hadd
        rcases List.mem_append.1 hadd with hold | hnew
        · exact Or.inl hold
        · exact Or.inr ⟨item, List.mem_cons_self, target, l.sources, htarget, hnew⟩
    · exact Or.inr ⟨item', List.mem_cons_of_mem _ hitem', hrest⟩

theorem names_foldl (items : List LinkItem) (l : Linked) :
    (items.foldl (add g importer) l).getters.map Prod.fst =
      l.getters.map Prod.fst ++ items.flatMap (·.kind.passed) := by
  induction items generalizing l with
  | nil => exact (List.append_nil _).symm
  | cons item items ih =>
    have hflat : (item :: items).flatMap (·.kind.passed) =
        item.kind.passed ++ items.flatMap (·.kind.passed) := List.flatMap_cons
    rw [List.foldl_cons, ih, names_add, hflat, List.append_assoc]

end Linked

namespace ModuleGraph

variable {g : ModuleGraph} {m : Module} {externals : List String} {i : Nat}

theorem mem_edits_link {e : Edit} (h : e ∈ (g.link externals m).edits) :
    ∃ item ∈ m.analysis.items, ∃ target sources, Expression g m.id item target ∧
      e ∈ item.edits target sources :=
  (Linked.mem_edits_foldl h).resolve_left List.not_mem_nil

/-- The getters that a wrapper starts with are those for the names its module exports itself. -/
theorem names_link (g : ModuleGraph) (externals : List String) (m : Module) :
    (g.link externals m).getters.map Prod.fst = m.names := Linked.names_foldl ..

/-- The wrapper of a module, which has the index `i`. -/
def Wraps (g : ModuleGraph) (i : Nat) (text : String) : Prop :=
  ∃ m externals body, g.get? i = some m ∧
    body = Text.dropEnd Text.isWhiteSpace (Edit.apply m.source (g.link externals m).edits).toList ∧
    text = "// " ++ displayId m.id ++ "\n__modules[" ++ toString i ++
      "] = function (module, exports, __require) \x7b\n" ++ gettersText (g.link externals m).getters ++
      String.ofList body ++ "\n\x7d;\n"

theorem wraps_moduleText (h : g.get? i = some m) (externals : List String) :
    g.Wraps i (g.moduleText externals i).1 := by
  refine ⟨m, externals, _, h, rfl, ?_⟩
  rw [moduleText, h]

/-- The functions of a chunk are the wrappers of its modules in their order. -/
theorem wraps_bodyText {modules : List Nat} (h : ∀ i ∈ modules, i < g.size) (externals : List String) :
    ∃ wrappers, List.Forall₂ g.Wraps modules wrappers ∧
      (g.bodyText modules externals).1 = String.join wrappers := by
  induction modules generalizing externals with
  | nil => exact ⟨[], List.Forall₂.nil, String.join_nil.symm⟩
  | cons i modules ih =>
    obtain ⟨m, hm⟩ := exists_get? (h i List.mem_cons_self)
    obtain ⟨wrappers, hwraps, htext⟩ :=
      ih (fun k hk => h k (List.mem_cons_of_mem _ hk)) (g.moduleText externals i).2
    refine ⟨_, List.Forall₂.cons (wraps_moduleText hm externals) hwraps, ?_⟩
    rw [String.join_cons, ← htext]
    rfl

theorem head?_chunkHead : chunkHead.toList.head? = some 'c' := by
  unfold chunkHead
  rw [String.intercalate_cons_cons, String.append_assoc, String.toList_append, List.head?_append]
  rfl

theorem head?_externalText (specifier : String) (number : Nat) :
    (externalText specifier number).toList.head? = some 'i' := by
  unfold externalText
  rw [String.append_assoc, String.append_assoc, String.append_assoc, String.toList_append, List.head?_append]
  rfl

/-- The imports that a chunk starts with, one for each external module. -/
def importTexts (g : ModuleGraph) (modules : List Nat) : List String :=
  (g.bodyText modules []).2.zipIdx.map fun (specifier, n) => externalText specifier n

theorem chunkText_eq {modules : List Nat} (h : ∀ i ∈ modules, i < g.size) (entry : Nat) :
    ∃ wrappers, List.Forall₂ g.Wraps modules wrappers ∧ g.chunkText modules entry =
      String.join (g.importTexts modules) ++ chunkHead ++ String.join wrappers ++ g.exportsText entry := by
  obtain ⟨wrappers, hwraps, htext⟩ := wraps_bodyText h []
  refine ⟨wrappers, hwraps, ?_⟩
  rw [← htext]
  rfl

end ModuleGraph

end LiveNotes.Bundle
