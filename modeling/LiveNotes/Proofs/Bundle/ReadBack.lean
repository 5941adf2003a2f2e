import LiveNotes.Proofs.Bundle.ChunkLine
import LiveNotes.Proofs.Bundle.Exports
import LiveNotes.Proofs.Script.Program

/-! A chunk read back as a module. Its part for the entry exports what was collected, whatever the names are. -/

namespace LiveNotes.Bundle

open Script Text Grammar

variable {lines : List ChunkLine} {ts us : List Tree} {c : Cursor}

theorem ChunkLine.opens {line : ChunkLine} {more : List TokenKind} (h : c.Shows (line.tokens ++ more)) :
    (c.token.kind == .finish) = false := by
  have hword : ∃ w rest, line.tokens = .word w false :: rest := by
    cases line <;> exact ⟨_, _, rfl⟩
  obtain ⟨w, rest, htokens⟩ := hword
  rw [htokens] at h
  rw [h.1.kind]
  rfl

/-- Lines that a cursor shows are read one after the other. -/
theorem bodyItems_lines (ctx : Context) (hwritten : ∀ line ∈ lines, line.IsWritten) (hwidth : ∀ line ∈ lines, line.width ≤ c.size)
    (hpos : 1 ≤ c.size) (htypes : c.dialect.types = false) (hyields : ctx.yields = false) (hdecorator : ctx.decorator = false)
    {more : List TokenKind} (hshows : c.Shows (lines.flatMap (·.tokens) ++ more)) (n : Nat) (b : Bool) :
    ∃ ts b', bodyItems (readers (n + 3)) ctx (· == .finish) lines.length b c =
        some ((ts, b'), Cursor.next^[(lines.flatMap (·.tokens)).length] c) ∧
      List.Forall₂ ChunkLine.ReadAs lines ts := by
  refine bodyItems_of_shows (fun line hline c' hagrees hshown => ?_) hshows b
  have hline' : c'.Shows (line.tokens ++ []) := by rwa [List.append_nil]
  have hopen : (c'.token.kind == .finish) = false := ChunkLine.opens hline'
  obtain ⟨t, hstatement, ht⟩ := ChunkLine.reads (hwritten line hline) (by rwa [hagrees.dialect]) hyields hdecorator
    (by rwa [hagrees.size]) (by simpa [hagrees.size] using hwidth line hline) n hshown
  exact ⟨hopen, t, hstatement, ht.statement, ht⟩

/-! ### What the statements say -/

theorem flatMap_exports (h : List.Forall₂ ChunkLine.ReadAs lines ts) (source : List Char) :
    ts.flatMap (fun t => (itemAnalysis source t).exports) = lines.flatMap (·.exports) := by
  induction h with
  | nil => rfl
  | cons ht _ ih => rw [List.flatMap_cons, List.flatMap_cons, ht.exports, ih]

theorem flatMap_imports (h : List.Forall₂ ChunkLine.ReadAs lines ts) (source : List Char) :
    ts.flatMap (fun t => (itemAnalysis source t).imports) = lines.flatMap (·.imports) := by
  induction h with
  | nil => rfl
  | cons ht _ ih => rw [List.flatMap_cons, List.flatMap_cons, ht.imports, ih]

theorem flatMap_exportedNames (h : List.Forall₂ ChunkLine.ReadAs lines ts) :
    ts.flatMap exportedNames = (lines.flatMap (·.exports)).map (·.1) := by
  induction h with
  | nil => rfl
  | cons ht _ ih => rw [List.flatMap_cons, List.flatMap_cons, List.map_append, ht.names, ih]

theorem itemAnalysis_of_not_isModuleItem {t : Tree} (h : isModuleItem t = false) (source : List Char) :
    itemAnalysis source t = {} := by
  unfold itemAnalysis
  split
  all_goals first
    | rfl
    | contradiction

theorem exportedNames_of_not_isModuleItem {t : Tree} (h : isModuleItem t = false) : exportedNames t = [] := by
  unfold exportedNames
  split
  all_goals first
    | rfl
    | contradiction

theorem exports_append (a b : Analysis) : (a ++ b).exports = a.exports ++ b.exports := rfl

theorem imports_append (a b : Analysis) : (a ++ b).imports = a.imports ++ b.imports := rfl

theorem exports_foldl (source : List Char) (ts : List Tree) (a : Analysis) :
    (ts.foldl (fun a t => a ++ itemAnalysis source t) a).exports =
      a.exports ++ ts.flatMap fun t => (itemAnalysis source t).exports := by
  induction ts generalizing a with
  | nil => exact (List.append_nil _).symm
  | cons t ts ih =>
    rw [List.foldl_cons, ih, List.flatMap_cons, ← List.append_assoc]
    rfl

theorem imports_foldl (source : List Char) (ts : List Tree) (a : Analysis) :
    (ts.foldl (fun a t => a ++ itemAnalysis source t) a).imports =
      a.imports ++ ts.flatMap fun t => (itemAnalysis source t).imports := by
  induction ts generalizing a with
  | nil => exact (List.append_nil _).symm
  | cons t ts ih =>
    rw [List.foldl_cons, ih, List.flatMap_cons, ← List.append_assoc]
    rfl

theorem ChunkLine.length_text_pos {line : ChunkLine} (h : line.IsWritten) : 0 < line.text.toList.length := by
  cases line with
  | importAll specifier number => simp [ChunkLine.text, ModuleGraph.externalText]
  | bindEntry index => simp [ChunkLine.text]
  | bindName name number => simp [ChunkLine.text, entryNameText]
  | exportNames names =>
    have hnames : names ≠ [] := h
    simp [ChunkLine.text, exportListText, hnames]
  | exportStar specifier => simp [ChunkLine.text, starText]

theorem length_le_length_lines (h : ∀ line ∈ lines, line.IsWritten) :
    lines.length ≤ (lines.flatMap (·.text.toList)).length := by
  induction lines with
  | nil => exact Nat.le_refl _
  | cons line lines ih =>
    obtain ⟨hline, hlines⟩ := List.forall_mem_cons.1 h
    have hpos := ChunkLine.length_text_pos hline
    have hle := ih hlines
    rw [List.flatMap_cons, List.length_append, List.length_cons]
    omega

theorem analyze_of_parse {code : String} {script : Program} (h : parse .plainModule code = some script) (id : String) :
    ∃ a, analyze code id = .ok a ∧
      a.exports = script.tree.kids.flatMap (fun t => (itemAnalysis code.toList t).exports) ∧
      a.imports.filter (!·.dynamic) =
        (script.tree.kids.flatMap fun t => (itemAnalysis code.toList t).imports).filter (!·.dynamic) := by
  refine ⟨_, by rw [analyze, h], ?_, ?_⟩
  · rw [exports_append, exports_foldl]
    exact List.append_nil _
  · have hcalls : ∀ calls, (dynamicAnalysis calls).imports.filter (!·.dynamic) = [] := by
      intro calls
      refine List.filter_eq_nil_iff.2 fun i hi => ?_
      obtain ⟨call, -, rfl⟩ := List.mem_map.1 hi
      exact Bool.noConfusion
    rw [imports_append, imports_foldl, List.filter_append, hcalls, List.append_nil]
    rfl

theorem anyLabels_lines (h : List.Forall₂ ChunkLine.ReadAs lines ts) :
    Tree.anyLabels (· == .coverDefault) ts = false := by
  induction h with
  | nil => rfl
  | cons ht _ ih =>
    rw [Tree.anyLabels, ht.faultless, ih]
    rfl

theorem not_dynamic_of_mem_imports {line : ChunkLine} {i : Import} (h : i ∈ line.imports) : i.dynamic = false := by
  cases line with
  | importAll specifier number =>
    obtain rfl := List.mem_singleton.1 h
    rfl
  | exportStar specifier =>
    obtain rfl := List.mem_singleton.1 h
    rfl
  | _ => contradiction

theorem hasDuplicates_eq_false {names : List String} (h : names.Nodup) : hasDuplicates names = false := by
  induction names with
  | nil => rfl
  | cons name names ih =>
    obtain ⟨hname, hnames⟩ := List.nodup_cons.1 h
    rw [hasDuplicates, ih hnames, Bool.or_false, Bool.eq_false_iff, Ne, List.contains_iff_mem]
    exact hname

/-! ### The parts of a chunk -/

namespace ModuleGraph

variable (g : ModuleGraph) (modules : List Nat) (entry : Nat)

/-- The lines that import the external modules. -/
def importLines : List ChunkLine :=
  (g.bodyText modules []).2.zipIdx.map fun p => .importAll p.1 p.2

/-- What stands between the imports and the exports: the runtime and the modules. -/
def innerText : String := chunkHead ++ (g.bodyText modules []).1

/-- The lines that export what the entry exports. -/
def entryLines : List ChunkLine :=
  .bindEntry entry :: ((g.exportedBy entry).names.zipIdx.map (fun p => .bindName p.1 p.2) ++
    ((if (g.exportedBy entry).names.isEmpty then [] else [.exportNames (g.exportedBy entry).names]) ++
      (g.exportedBy entry).stars.map .exportStar))

theorem toList_exportsText : (g.exportsText entry).toList = (g.entryLines entry).flatMap (·.text.toList) := by
  have hnames : (if (g.exportedBy entry).names.isEmpty then [] else [ChunkLine.exportNames (g.exportedBy entry).names]).flatMap
      (·.text.toList) = (exportListText (g.exportedBy entry).names).toList := by
    cases hempty : (g.exportedBy entry).names.isEmpty with
    | true =>
      rw [exportListText, hempty]
      rfl
    | false => simp [ChunkLine.text]
  rw [entryLines, List.flatMap_cons, List.flatMap_append, List.flatMap_append, hnames]
  simp only [exportsText, namesText, ChunkLine.text, String.toList_append, String.toList_join, List.flatMap_map,
    List.append_assoc]

theorem toList_chunkText : (g.chunkText modules entry).toList =
    (g.importLines modules).flatMap (·.text.toList) ++ ((g.innerText modules).toList ++ (g.exportsText entry).toList) := by
  simp only [chunkText, importLines, innerText, String.toList_append, String.toList_join, List.flatMap_map, List.append_assoc]
  rfl

theorem isWritten_importLines : ∀ line ∈ g.importLines modules, line.IsWritten := by
  intro line hline
  obtain ⟨p, -, rfl⟩ := List.mem_map.1 hline
  exact trivial

theorem mem_entryLines {line : ChunkLine} (h : line ∈ g.entryLines entry) :
    line.IsWritten ∧ line.width ≤ (g.entryLines entry).length := by
  have hlength : 1 + (g.exportedBy entry).names.length ≤ (g.entryLines entry).length := by
    simp only [entryLines, List.length_cons, List.length_append, List.length_map, List.length_zipIdx]
    omega
  simp only [entryLines, List.mem_cons, List.mem_append, List.mem_map] at h
  rcases h with rfl | ⟨p, -, rfl⟩ | h | ⟨specifier, -, rfl⟩
  · exact ⟨trivial, Nat.le_trans (Nat.le_add_right _ _) hlength⟩
  · exact ⟨trivial, Nat.le_trans (Nat.le_add_right _ _) hlength⟩
  · split at h
    · contradiction
    · next hnames =>
      obtain rfl := List.mem_singleton.1 h
      have hne : (g.exportedBy entry).names ≠ [] := by simpa using hnames
      exact ⟨hne, Nat.le_trans (Nat.le_add_left _ _) hlength⟩
  · exact ⟨trivial, Nat.le_trans (Nat.le_add_right _ _) hlength⟩

theorem exports_importLines : (g.importLines modules).flatMap (·.exports) = [] := by
  simp [importLines, ChunkLine.exports, List.flatMap_map]

theorem imports_importLines : (g.importLines modules).flatMap (·.imports) =
    (g.bodyText modules []).2.zipIdx.map fun p => ⟨p.1, false, [⟨"*", externalName p.2⟩]⟩ := by
  rw [importLines, List.flatMap_map, List.map_eq_flatMap]
  rfl

theorem exports_entryLines : (g.entryLines entry).flatMap (·.exports) =
    (g.exportedBy entry).names.zipIdx.map fun p => (p.1, exportedName p.2) := by
  have hlist : (if (g.exportedBy entry).names.isEmpty then [] else [ChunkLine.exportNames (g.exportedBy entry).names]).flatMap
      (·.exports) = (g.exportedBy entry).names.zipIdx.map fun p => (p.1, exportedName p.2) := by
    cases hnames : (g.exportedBy entry).names with
    | nil => rfl
    | cons name names => exact List.append_nil _
  have hbound : ((g.exportedBy entry).names.zipIdx.map fun p => ChunkLine.bindName p.1 p.2).flatMap (·.exports) = [] := by
    simp [ChunkLine.exports, List.flatMap_map]
  have hstars : ((g.exportedBy entry).stars.map ChunkLine.exportStar).flatMap (·.exports) = [] := by
    simp [ChunkLine.exports, List.flatMap_map]
  rw [entryLines, List.flatMap_cons, List.flatMap_append, List.flatMap_append, hlist, hbound, hstars, List.append_nil]
  rfl

theorem imports_entryLines : (g.entryLines entry).flatMap (·.imports) =
    (g.exportedBy entry).stars.map fun specifier => ⟨specifier, false, [⟨"*", "*"⟩]⟩ := by
  have hlist : (if (g.exportedBy entry).names.isEmpty then [] else [ChunkLine.exportNames (g.exportedBy entry).names]).flatMap
      (·.imports) = [] := by
    cases hnames : (g.exportedBy entry).names with
    | nil => rfl
    | cons name names => rfl
  have hbound : ((g.exportedBy entry).names.zipIdx.map fun p => ChunkLine.bindName p.1 p.2).flatMap (·.imports) = [] := by
    simp [ChunkLine.imports, List.flatMap_map]
  rw [entryLines, List.flatMap_cons, List.flatMap_append, List.flatMap_append, hlist, hbound, List.flatMap_map,
    List.map_eq_flatMap]
  rfl

theorem head?_chunkText : ∃ c, (g.chunkText modules entry).toList.head? = some c ∧ c ≠ '#' := by
  rw [toList_chunkText, List.head?_append]
  cases hlines : g.importLines modules with
  | nil =>
    refine ⟨'c', ?_, by decide⟩
    simp [innerText, head?_chunkHead]
  | cons line lines =>
    have hmem : line ∈ g.importLines modules := hlines ▸ List.mem_cons_self
    obtain ⟨p, -, rfl⟩ := List.mem_map.1 hmem
    refine ⟨'i', ?_, by decide⟩
    simp [ChunkLine.text, head?_externalText]

theorem hashbangLine_chunkText : hashbangLine (g.chunkText modules entry).toList = none := by
  obtain ⟨c, hhead, hc⟩ := head?_chunkText g modules entry
  refine hashbangLine_eq_none ?_
  rw [hhead, Ne, Option.some.injEq]
  exact hc

/-- The runtime and the modules of a chunk are read, as statements that are no items of the module that it is, and the
reader comes to the part for the entry without having met a fault. -/
def ReadsFront : Prop :=
  ∃ count ≤ (g.innerText modules).toList.length, ReadsUpTo (g.chunkText modules entry).toList
    (g.exportsText entry).toList (g.importLines modules).length count

variable {g modules entry}

/-- From where the entry's part starts, it is read up to its end. -/
theorem bodyItems_entryLines {c : Cursor} (hsize : (g.exportsText entry).toList.length < c.size)
    (htypes : c.dialect.types = false) (hstands : c.StandsAt (g.exportsText entry).toList) (n : Nat) (b : Bool) :
    ∃ ts b' c', bodyItems (readers (n + 3)) (SourceKind.plainModule.context true) (· == .finish)
        (g.entryLines entry).length b c = some ((ts, b'), c') ∧
      List.Forall₂ ChunkLine.ReadAs (g.entryLines entry) ts ∧ c'.token.kind = .finish ∧ c.Agrees c' := by
  have hwritten : ∀ line ∈ g.entryLines entry, line.IsWritten := fun line h => (g.mem_entryLines entry h).1
  have hlength := length_le_length_lines hwritten
  rw [← toList_exportsText] at hlength
  have hwidth : ∀ line ∈ g.entryLines entry, line.width ≤ c.size := fun line h => by
    have hle := (g.mem_entryLines entry h).2
    omega
  obtain ⟨gap, hlines⟩ := lexes_lines hwritten .none []
  have hlexes := hlines.append (.token gap startsWith_finish (.done []))
  have htext : Gap.none.text ++ ((g.entryLines entry).flatMap (·.text.toList) ++ []) = (g.exportsText entry).toList := by
    rw [List.append_nil, toList_exportsText]
    rfl
  rw [htext] at hlexes
  have hshows : c.Shows ((g.entryLines entry).flatMap (·.tokens) ++ [.finish]) :=
    hstands.shows hlexes (Nat.le_of_lt hsize)
  have hpos : 1 ≤ c.size := by omega
  obtain ⟨ts, b', hitems, hts⟩ := bodyItems_lines (SourceKind.plainModule.context true) hwritten hwidth hpos htypes rfl rfl hshows n b
  exact ⟨ts, b', _, hitems, hts, ((Cursor.shows_append _).1 hshows).2.1.kind, Cursor.agrees_iterate _ _⟩

/-- From the start of the text, its imports are read. -/
theorem bodyItems_importLines (g : ModuleGraph) (modules : List Nat) (entry n : Nat) :
    ∃ ts b' c', bodyItems (readers (n + 3)) (SourceKind.plainModule.context true) (· == .finish)
        (g.importLines modules).length true (startCursor .plainModule (g.chunkText modules entry).toList) =
        some ((ts, b'), c') ∧ List.Forall₂ ChunkLine.ReadAs (g.importLines modules) ts := by
  have hwritten := g.isWritten_importLines modules
  obtain ⟨gap, hlexes⟩ := lexes_lines hwritten .none ((g.innerText modules).toList ++ (g.exportsText entry).toList)
  rw [← toList_chunkText] at hlexes
  have hshows : (startCursor .plainModule (g.chunkText modules entry).toList).Shows
      ((g.importLines modules).flatMap (·.tokens) ++ []) := by
    rw [List.append_nil]
    exact Cursor.shows_atPlace hlexes _ rfl rfl rfl (Nat.le_succ _)
  have hwidth : ∀ line ∈ g.importLines modules, line.width ≤ (g.chunkText modules entry).toList.length + 1 := by
    intro line hline
    obtain ⟨p, -, rfl⟩ := List.mem_map.1 hline
    exact Nat.le_add_left 1 _
  obtain ⟨ts, b', hitems, hts⟩ := bodyItems_lines (SourceKind.plainModule.context true) hwritten hwidth
    (Nat.le_add_left 1 _) rfl rfl rfl hshows n true
  exact ⟨ts, b', _, hitems, hts⟩

/-- A chunk whose front is read is a program: the imports, what is inside of the chunk, and the exports. -/
theorem ReadsFront.parse (h : g.ReadsFront modules entry) :
    ∃ script first inner last, Script.parse .plainModule (g.chunkText modules entry) = some script ∧
      script.tree.kids = first ++ inner ++ last ∧
      List.Forall₂ ChunkLine.ReadAs (g.importLines modules) first ∧ (∀ t ∈ inner, isModuleItem t = false) ∧
      List.Forall₂ ChunkLine.ReadAs (g.entryLines entry) last := by
  obtain ⟨count, hfew, ⟨⟨items, b⟩, c⟩, hreads, h⟩ := h
  rw [Option.mem_def] at hreads
  obtain ⟨first, b₁, c₁, hfirst, hfirstLines⟩ := bodyItems_importLines g modules entry
    (4 * (g.chunkText modules entry).toList.length + 13)
  obtain ⟨inner, rfl, hinner⟩ : ∃ inner, items = first ++ inner ∧ ∀ t ∈ inner, isModuleItem t = false := by
    rw [bodyItems_add, hfirst, Option.bind_some] at hreads
    obtain ⟨⟨⟨inner, b'⟩, c'⟩, -, hinner⟩ := Option.map_eq_some_iff.1 hreads
    simp only [Prod.mk.injEq] at hinner
    obtain ⟨⟨rfl, -⟩, -⟩ := hinner
    refine ⟨inner, rfl, fun t ht => h.inner t ?_⟩
    rw [hfirstLines.length_eq, List.drop_left]
    exact ht
  have hlength : (g.exportsText entry).toList.length < c.size := by
    rw [h.agrees.size]
    refine Nat.lt_succ_of_le ?_
    rw [toList_chunkText, List.length_append, List.length_append]
    omega
  have htypes : c.dialect.types = false := by
    rw [h.agrees.dialect]
    rfl
  obtain ⟨last, b₂, c₂, hlast, hlastLines, hfinish, hagrees⟩ := bodyItems_entryLines hlength htypes h.stands
    (4 * (g.chunkText modules entry).toList.length + 13) b
  have hall : bodyItems (readers (4 * (g.chunkText modules entry).toList.length + 16))
      (SourceKind.plainModule.context true) (· == .finish)
      ((g.importLines modules).length + count + (g.entryLines entry).length) true
      (startCursor .plainModule (g.chunkText modules entry).toList) = some ((first ++ inner ++ last, b₂), c₂) := by
    rw [bodyItems_add, hreads, Option.bind_some, hlast]
    rfl
  have hcount : (g.importLines modules).length + count + (g.entryLines entry).length ≤
      (g.chunkText modules entry).toList.length + 1 := by
    have himports := length_le_length_lines (g.isWritten_importLines modules)
    have hentry := length_le_length_lines fun line hline => (g.mem_entryLines entry hline).1
    rw [toList_chunkText, List.length_append, List.length_append, toList_exportsText]
    omega
  have hnames : (first ++ inner ++ last).flatMap exportedNames = (g.exportedBy entry).names := by
    have hnone : inner.flatMap exportedNames = [] :=
      List.flatMap_eq_nil_iff.2 fun t ht => exportedNames_of_not_isModuleItem (hinner t ht)
    rw [List.flatMap_append, List.flatMap_append, flatMap_exportedNames hfirstLines, hnone,
      flatMap_exportedNames hlastLines, exports_importLines, exports_entryLines, List.map_map]
    exact List.zipIdx_map_fst _ _
  have hfaultless : Tree.anyLabels (· == .coverDefault) (first ++ inner ++ last) = false := by
    rw [Tree.anyLabels_append, Tree.anyLabels_eq_false h.faultless, anyLabels_lines hlastLines]
    rfl
  have hflawed : c₂.flawed = false := by
    rw [hagrees.flawed, h.agrees.flawed]
    rfl
  obtain ⟨script, hparse, hkids⟩ := parse_of_bodyItems (hashbangLine_chunkText g modules entry) hall hfinish hcount hflawed
    hfaultless (by rw [hnames, hasDuplicates_eq_false (nodup_exportedBy g entry)])
  exact ⟨script, first, inner, last, hparse, hkids, hfirstLines, hinner, hlastLines⟩

/-- A chunk whose front is read is a module. It imports the external modules and nothing else but those whose names it
passes on, and it exports the names that were collected for its entry, whatever they are. -/
theorem analyze_chunkText (h : g.ReadsFront modules entry) (id : String) :
    ∃ a, analyze (g.chunkText modules entry) id = .ok a ∧
      a.exports = (g.exportedBy entry).names.zipIdx.map (fun p => (p.1, exportedName p.2)) ∧
      a.imports.filter (!·.dynamic) =
        (g.bodyText modules []).2.zipIdx.map (fun p => ⟨p.1, false, [⟨"*", externalName p.2⟩]⟩) ++
          (g.exportedBy entry).stars.map (fun specifier => ⟨specifier, false, [⟨"*", "*"⟩]⟩) ∧
      (g.exportedBy entry).names.Nodup := by
  obtain ⟨script, first, inner, last, hparse, hkids, hfirst, hinner, hlast⟩ := h.parse
  obtain ⟨a, hanalyze, hexports, himports⟩ := analyze_of_parse hparse id
  have hnone : ∀ t ∈ inner, itemAnalysis (g.chunkText modules entry).toList t = {} :=
    fun t ht => itemAnalysis_of_not_isModuleItem (hinner t ht) _
  refine ⟨a, hanalyze, ?_, ?_, nodup_exportedBy g entry⟩
  · have hinnerExports : inner.flatMap (fun t => (itemAnalysis (g.chunkText modules entry).toList t).exports) = [] :=
      List.flatMap_eq_nil_iff.2 fun t ht => by rw [hnone t ht]
    rw [hexports, hkids, List.flatMap_append, List.flatMap_append, flatMap_exports hfirst, hinnerExports,
      flatMap_exports hlast, exports_importLines, exports_entryLines]
    rfl
  · have hinnerImports : inner.flatMap (fun t => (itemAnalysis (g.chunkText modules entry).toList t).imports) = [] :=
      List.flatMap_eq_nil_iff.2 fun t ht => by rw [hnone t ht]
    have hstatic : ∀ lines : List ChunkLine, (lines.flatMap (·.imports)).filter (!·.dynamic) = lines.flatMap (·.imports) := by
      intro lines
      refine List.filter_eq_self.2 fun i hi => ?_
      obtain ⟨line, -, hi⟩ := List.mem_flatMap.1 hi
      rw [not_dynamic_of_mem_imports hi]
      rfl
    rw [himports, hkids, List.flatMap_append, List.flatMap_append, flatMap_imports hfirst, hinnerImports,
      flatMap_imports hlast, List.append_nil, List.filter_append, hstatic, hstatic, imports_importLines, imports_entryLines]

end ModuleGraph

end LiveNotes.Bundle
