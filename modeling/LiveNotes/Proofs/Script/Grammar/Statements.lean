import LiveNotes.Proofs.Script.Grammar.Control
import LiveNotes.Script.Grammar.Statement

/-! Imports, exports, declarations and all other statements as trees of leaves. -/

namespace LiveNotes.Script

open Parse Grammar

variable {text : List Char} {lo : Nat} {rec : Readers} {c c' : Cursor}

/-! ### Imports -/

@[simp] theorem quiet_sourceText : Quiet text sourceText := by
  refine quiet_kind.bind fun k => ?_
  split <;> simp

@[simp] theorem quiet_attributeEntry : Quiet text attributeEntry := by
  have hrest : ∀ key, Quiet text (do
      expectPunct .colon
      return (key, ← sourceText) : Parse (ExportedName × String)) := by simp
  refine quiet_kind.bind fun k => ?_
  split
  · exact quiet_advance.bind fun _ => hrest _
  · exact quiet_advance.bind fun _ => hrest _
  · exact Quiet.reject.bind hrest

@[simp] theorem quiet_attributesWord? : Quiet text attributesWord? := by
  refine quiet_token.bind fun t => ?_
  split <;> exact .pure _

/-- Attributes have no leaves. -/
theorem Gives.importAttributes : Gives text importAttributes fun found => found := by
  intro lo
  refine .quiet quiet_here fun start => .quiet quiet_attributesWord? fun w? => ?_
  cases w? with
  | none => exact .pure rfl
  | some w =>
    refine .quiet quiet_advance fun _ => .quiet (quiet_expectPunct _) fun _ => ?_
    refine .quiet (quiet_commaList quiet_attributeEntry _) fun entries => .quiet (quiet_expectPunct _) fun _ => ?_
    exact .quiet (quiet_flawIf _) fun _ => .seq (.finish rfl fun _ => trivial) fun t => .pure rfl

theorem quiet_importAttributes : Quiet text importAttributes := Gives.importAttributes.quiet

@[simp] theorem quiet_exportedName : Quiet text exportedName := by
  refine quiet_kind.bind fun k => ?_
  split <;> simp

@[simp] theorem quiet_atExportedName : Quiet text atExportedName := by
  refine quiet_kind.bind fun k => ?_
  split <;> exact .pure _

@[simp] theorem quiet_renamed (name : ExportedName) (typeOnly : Bool) : Quiet text (renamed name typeOnly) := by
  refine (quiet_eatWord _).bind fun _ => .ite ?_ (.pure _)
  exact quiet_exportedName.bind fun _ => .pure _

@[simp] theorem quiet_specifier (inTypes : Bool) : Quiet text (specifier inTypes) := by
  refine .types ((quiet_atWord _).bind fun _ => quiet_exportedName.bind fun first => ?_)
  refine (quiet_atWord _).bind fun _ => quiet_atExportedName.bind fun _ => ?_
  exact (quiet_renamed first false).bind fun s => (quiet_flawIf _).bind fun _ => .pure _

@[simp] theorem quiet_importName (ctx : Context) (inTypes : Bool) : Quiet text (importName ctx inTypes) := by
  refine quiet_here.bind fun start => (quiet_specifier inTypes).bind fun s => ?_
  have hrest : Quiet text (do
      useName ctx s.other.text
      finish (.importName s.name s.other.text s.typeOnly) start []) :=
    (quiet_useName _ _).bind fun _ => quiet_finish _ _ _
  exact .ite hrest (Quiet.reject.bind fun _ => hrest)

@[simp] theorem quiet_importAll (ctx : Context) : Quiet text (importAll ctx) :=
  quiet_here.bind fun _ => (quiet_expectPunct _).bind fun _ => (quiet_expectWord _).bind fun _ =>
    (quiet_identifierText ctx).bind fun _ => quiet_finish _ _ _

@[simp] theorem quiet_importNames (ctx : Context) (inTypes : Bool) : Quiet text (importNames ctx inTypes) := by
  refine (quiet_atPunct _).bind fun _ => .ite ((quiet_importAll ctx).bind fun _ => .pure _) ?_
  refine (quiet_expectPunct _).bind fun _ => (quiet_commaList (quiet_importName ctx inTypes) _).bind fun _ => ?_
  exact (quiet_expectPunct _).bind fun _ => .pure _

@[simp] theorem quiet_saysHow (afterFrom mayFollow : TokenKind → Bool) : Quiet text (saysHow afterFrom mayFollow) :=
  quiet_looksLike _

@[simp] theorem quiet_importHead : Quiet text importHead := by
  let phased (source defer : Bool) : ImportPhase := if source then .source else if defer then .defer else .evaluation
  have hend : ∀ typeOnly source defer : Bool, Quiet text (do
      if typeOnly || source || defer then advance
      pure { typeOnly, phase := phased source defer } : Parse ImportHead) := fun _ _ _ =>
    .ite (quiet_advance.bind fun _ => .pure _) (.pure _)
  have hdefer : ∀ typeOnly source : Bool, Quiet text (do
      let defer ← if ← atWord "defer" then saysHow (fun _ => false) (· == .punct .star) else pure false
      if typeOnly || source || defer then advance
      pure { typeOnly, phase := phased source defer } : Parse ImportHead) := fun typeOnly source =>
    (quiet_atWord _).bind fun _ =>
      .ite ((quiet_saysHow _ _).bind (hend typeOnly source)) ((Quiet.pure _).bind (hend typeOnly source))
  refine .types ((quiet_atWord _).bind fun _ => (Quiet.pure _).bind fun typeOnly => (quiet_atWord _).bind fun _ => ?_)
  exact .ite ((quiet_saysHow _ _).bind (hdefer typeOnly)) ((Quiet.pure _).bind (hdefer typeOnly))

theorem yields_importAttributes : Yields importAttributes fun found => ∀ t ∈ found, t.isImportPart = true := by
  refine .bind fun start => .bind fun w? => ?_
  cases w? with
  | none => exact .pure (by simp)
  | some w =>
    refine .bind fun _ => .bind fun _ => .bind fun entries => .bind fun _ => .bind fun _ => ?_
    exact .seq (.finish fun _ => rfl) fun t ht => .pure (by simpa using ht)

theorem yields_importNames (ctx : Context) (inTypes : Bool) :
    Yields (importNames ctx inTypes) fun found => ∀ t ∈ found, t.isImportPart = true := by
  have hname : Yields (importName ctx inTypes) fun t => t.isImportPart = true := by
    refine .bind fun start => .bind fun s => .ite ?_ (.bind fun _ => ?_)
    all_goals exact .bind fun _ => .finish fun _ => rfl
  have hall : Yields (importAll ctx) fun t => t.isImportPart = true :=
    .bind fun _ => .bind fun _ => .bind fun _ => .bind fun _ => .finish fun _ => rfl
  refine .bind fun _ => .ite (.seq hall fun t ht => .pure (by simpa using ht)) (.bind fun _ => ?_)
  exact .seq (.commaList hname _) fun found hfound => .bind fun _ => .pure hfound

/-- An import is one leaf, whatever its parts. -/
theorem regular_importDecl {phase : ImportPhase} {source : String} {bare typeOnly : Bool} {ks : List Tree}
    (h : ∀ k ∈ ks, k.isImportPart = true) (span : Span) :
    Regular text (.node (.importDecl phase source bare typeOnly) span ks) :=
  regular_node h fun k hk => regular_importPart (h k hk)

theorem closes_importFrom {start : Nat} (hstart : IsPlace text start) (h : ImportHead) {specifiers : List Tree}
    (hspecifiers : ∀ k ∈ specifiers, k.isImportPart = true) :
    Closes text start (importFrom start h specifiers) fun t => [t] := by
  refine .quiet (quiet_expectWord _) fun _ => .quiet quiet_sourceText fun source => ?_
  refine .quietWith quiet_importAttributes yields_importAttributes fun attributes hattributes => ?_
  refine .quiet quiet_endStatement fun _ => .finish hstart rfl (regular_importDecl fun k hk => ?_)
  exact (List.mem_append.1 hk).elim (hspecifiers k) (hattributes k)

theorem closes_importClause {start : Nat} (hstart : IsPlace text start) (ctx : Context) (h : ImportHead) :
    Closes text start (importClause ctx start h) fun t => [t] := by
  refine .quiet (quiet_atPunct _) fun _ => .quiet (quiet_atPunct _) fun _ => .ite ?_ ?_
  · exact .quietWith (quiet_importNames _ _) (yields_importNames _ _) fun names => closes_importFrom hstart h
  · refine .quiet quiet_here fun nameStart => .quiet (quiet_identifierText ctx) fun w => ?_
    refine .types (.quiet (quiet_atPunct _) fun _ => ?_)
    have hname : Yields (finish (.importDefault w) nameStart []) fun t => t.isImportPart = true :=
      .finish fun _ => rfl
    refine .quietWith (quiet_finish _ _ _) hname fun name hname => .quiet (quiet_eatPunct _) fun _ => .ite ?_ ?_
    · refine .quiet (quiet_flawIf _) fun _ => ?_
      refine .quietWith (quiet_importNames _ _) (yields_importNames _ _) fun names hnames => ?_
      exact closes_importFrom hstart h (List.forall_mem_cons.2 ⟨hname, hnames⟩)
    · exact closes_importFrom hstart h (by simpa using hname)

/-- An import behind its first word. -/
theorem closes_importRest {start : Nat} (hstart : IsPlace text start) (ctx : Context) : Closes text start (do
    match ← kind with
    | .string v _ =>
      advance
      let attributes ← importAttributes
      endStatement
      finish (.importDecl .evaluation v true false) start attributes
    | _ => importClause ctx start (← importHead)) fun t => [t] := by
  refine .quiet quiet_kind fun k => ?_
  split
  · refine .quiet quiet_advance fun _ => .quietWith quiet_importAttributes yields_importAttributes fun _ hattributes => ?_
    exact .quiet quiet_endStatement fun _ => .finish hstart rfl (regular_importDecl hattributes)
  · exact .quiet quiet_importHead fun h => closes_importClause hstart ctx h

theorem reads_importDeclaration (ctx : Context) : Reads text (importDeclaration ctx) :=
  .starts fun _ hstart => .expectWord (closes_importRest hstart ctx)

/-! ### Exports -/

/-- The token where a name on the far side of a module boundary stands is passed. -/
theorem exportedName_passes (hc : Ready text c) {name : ExportedName} (h : exportedName c = some (name, c')) :
    Onward text c c' ∧ c.token.span.start ≤ c'.lastStop := by
  refine ⟨quiet_exportedName hc h, ?_⟩
  obtain ⟨k, c₁, hkind, h⟩ := run_bind_eq_some h
  obtain ⟨rfl, rfl⟩ := by simpa using hkind
  cases hk : c.token.kind with
  | word w escaped =>
    obtain ⟨_, rfl⟩ := by simpa [hk] using h
    exact hc.here_le
  | string v surrogates =>
    simp only [hk] at h
    obtain ⟨_, c₁, hflaw, h⟩ := run_bind_eq_some h
    obtain ⟨_, rfl⟩ := by simpa using h
    have hsame := (flawIf_keeps hflaw).2.1
    have hstop : c₁.next.lastStop = c₁.token.span.stop := rfl
    rw [hstop, hsame]
    exact hc.here_le
  | _ => simp [hk, reject] at h

theorem specifier_passes (hc : Ready text c) {inTypes : Bool} {s : Specifier} (h : specifier inTypes c = some (s, c')) :
    Onward text c c' ∧ c.token.span.start ≤ c'.lastStop := by
  obtain ⟨types, c₁, htypes, h⟩ := run_bind_eq_some h
  obtain ⟨rfl, rfl⟩ := by simpa [hc.plain] using htypes
  obtain ⟨_, c₁, hat, h⟩ := run_bind_eq_some h
  obtain ⟨_, rfl⟩ := by simpa [atWord] using hat
  obtain ⟨first, c₁, hfirst, h⟩ := run_bind_eq_some h
  obtain ⟨hmove, hpast⟩ := exportedName_passes hc hfirst
  have hrest : Quiet text (do
      let _ ← atWord "as"
      let _ ← atExportedName
      let s ← renamed first false
      flawIf (inTypes && s.typeOnly)
      pure s) :=
    (quiet_atWord _).bind fun _ => quiet_atExportedName.bind fun _ => (quiet_renamed _ _).bind fun _ =>
      (quiet_flawIf _).bind fun _ => .pure _
  have hmore := hrest hmove.ready h
  exact ⟨hmove.trans hmore, Nat.le_trans hpast hmore.lastStop⟩

theorem reads_exportName (inTypes : Bool) : Reads text (exportName inTypes) := by
  refine .starts fun start hstart => ?_
  intro c t c'' hc hhere h
  obtain ⟨s, c', hs, h⟩ := run_bind_eq_some h
  obtain ⟨hmove, hpast⟩ := specifier_passes hc hs
  have hleaf : Closes text start (finish (.exportName s.name s.other s.typeOnly) start []) fun t => [t] :=
    .finish hstart rfl fun _ => regular_leaf rfl rfl
  exact Starts.of_closes hleaf hmove (hhere ▸ hpast) h

theorem reads_exportList (start : Nat) (typeOnly : Bool) : Reads text (exportList start typeOnly) := by
  intro lo
  refine .quiet (quiet_expectPunct _) fun _ => .bind (.commaList (reads_exportName typeOnly) _) fun names => ?_
  refine .quiet (quiet_expectPunct _) fun _ => ?_
  have hend : ∀ (source? : Option String) (attributes : List Tree), Gathers text lo (names ++ attributes) (do
      flawIf (source?.isNone && !(names.all isLocalName))
      endStatement
      finish (.exportList source? typeOnly) start (names ++ attributes)) fun t => [t] := fun _ _ =>
    .quiet (quiet_flawIf _) fun _ => .quiet quiet_endStatement fun _ => .finish rfl fun _ => trivial
  have hattributes : ∀ source? : Option String, Gathers text lo names (do
      let attributes ← if source?.isSome then importAttributes else pure []
      flawIf (source?.isNone && !(names.all isLocalName))
      endStatement
      finish (.exportList source? typeOnly) start (names ++ attributes)) fun t => [t] := by
    intro source?
    exact .ite (.bind .importAttributes (hend source?)) (.bind (fun _ => .pure rfl) (hend source?))
  refine .quiet (quiet_eatWord _) fun _ => .ite (.quiet quiet_kind fun k => ?_) (.quiet (.pure _) hattributes)
  split
  · exact .quiet quiet_advance fun _ => .quiet (.pure _) hattributes
  · exact .quiet (.pure _) hattributes

theorem reads_exportAll (start : Nat) (typeOnly : Bool) : Reads text (exportAll start typeOnly) := by
  intro lo
  refine .quiet (quiet_expectPunct _) fun _ => ?_
  have hrest : ∀ asName, Gathers text lo [] (do
      expectWord "from"
      let source ← sourceText
      let attributes ← importAttributes
      endStatement
      finish (.exportAll asName source typeOnly) start attributes) fun t => [t] := fun _ =>
    .quiet (quiet_expectWord _) fun _ => .quiet quiet_sourceText fun _ => .bind .importAttributes fun attributes =>
      .quiet quiet_endStatement fun _ => .finish rfl fun _ => trivial
  exact .quiet (quiet_eatWord _) fun _ => .ite (.quiet (.map quiet_exportedName) hrest) (.quiet (.pure _) hrest)

/-! ### Declarations -/

theorem gathers_valueDeclaration? (hrec : ReadsGoals text rec) (ctx : Context) (h : DeclarationHead) (w : String) :
    Gathers text lo [h.decorators] (valueDeclaration? rec ctx h w) fun t? => t?.toList := by
  have hdrop {p : Parse (Option Tree)} (hp : Gathers text lo [] p fun t? => t?.toList) :
      Gathers text lo [h.decorators] p fun t? => t?.toList := .drop (List.nil_sublist _) hp
  have hvariables : ∀ start kind, Gathers text lo [] (do
      checkModifiers (· == .declare) h.modifiers
      advance
      return some (← variableStatement rec ctx start kind)) fun t? => t?.toList := fun start kind =>
    .quiet (quiet_checkModifiers _ _) fun _ => .quiet quiet_advance fun _ =>
      .read (reads_variableStatement hrec ctx start kind) fun t => .pure rfl
  refine .quiet quiet_here fun start => ?_
  dsimp only
  split
  iterate 3
    refine .quiet quiet_nextToken fun _ => .types (hdrop ?_)
    simpa using hvariables start _
  · refine .quiet (quiet_checkModifiers _ _) fun _ => ?_
    exact .seq (gathers_classTree hrec ctx .classDecl rfl (fun _ _ _ _ _ => rfl) _ _) fun t => .pure rfl
  · refine .quiet (quiet_checkModifiers _ _) fun _ => hdrop ?_
    exact .read (takes_functionDeclaration hrec ctx start false false).reads fun t => .pure rfl
  · refine .quiet quiet_nextToken fun next => .ite .rejectBind (hdrop ?_)
    refine .quiet (quiet_checkModifiers _ _) fun _ => .quiet quiet_advance fun _ => ?_
    exact .read (takes_functionDeclaration hrec ctx start true false).reads fun t => .pure rfl
  · exact hdrop (.pure rfl)

theorem gathers_declaration (hrec : ReadsGoals text rec) (ctx : Context) (h : DeclarationHead) :
    Gathers text lo [h.decorators] (declaration rec ctx h) fun t => [t] := by
  refine .quiet quiet_kind fun k => ?_
  split
  next w =>
    have hend : ∀ t, Gathers text lo [t] (pure (if h.modifiers.contains .declare then
        .node (.erased false (describedBy t)) ⟨h.start, t.span.stop⟩ [] else t)) fun t => [t] := by
      intro t
      refine .pureWith fun stop hts => ?_
      split
      · exact Spaced.nil.node rfl trivial
      · exact hts
    refine .quiet (quiet_flawIf _) fun _ => .seq (gathers_valueDeclaration? hrec _ h w) fun t? => ?_
    cases t? with
    | some t => exact .seq (.pure rfl) hend
    | none => exact .seq (.types .reject) hend
  next => exact .reject

theorem gathers_laterDecorators (hrec : ReadsGoals text rec) (ctx : Context) (ds : Tree) :
    Gathers text lo [ds] (laterDecorators rec ctx ds) fun t => [t] := by
  refine .quiet (quiet_atPunct _) fun _ => .ite ?_ (.pure rfl)
  exact .quiet (quiet_flawIf _) fun _ => .drop (List.nil_sublist _) (reads_decorators hrec ctx lo)

theorem gathers_defaultDeclaration? (hrec : ReadsGoals text rec) (ctx : Context) (first : Nat) (ds : Tree)
    (w : String) : Gathers text lo [ds] (defaultDeclaration? rec ctx first ds w) fun t? => t?.toList := by
  refine .quiet quiet_here fun start => .types (.quiet quiet_nextToken fun next => ?_)
  have hclass : Gathers text lo [ds] (do
      return some (← classTree rec ctx .classDecl first ds)) fun t? => t?.toList :=
    .seq (gathers_classTree hrec ctx .classDecl rfl (fun _ _ _ _ _ => rfl) first ds) fun t => .pure rfl
  have hnone : Gathers text lo [ds] (pure none) fun t? => t?.toList := .drop (List.nil_sublist _) (.pure rfl)
  have hfunction : ∀ isAsync, Gathers text lo [ds] (do
      return some (← functionDeclaration rec ctx start isAsync true)) fun t? => t?.toList := fun isAsync =>
    .drop (List.nil_sublist _) (.read (takes_functionDeclaration hrec ctx start isAsync true).reads fun t => .pure rfl)
  split
  · exact hclass
  · exact hfunction false
  · exact .ite (.quiet quiet_advance fun _ => hfunction true) hnone
  · exact hnone
  · exact hnone
  · exact hnone

/-- What a module exports by default: a declaration, or else an expression. -/
theorem gathers_defaultValue (hrec : ReadsGoals text rec) (ctx : Context) (start : Nat) (isPure : Bool) (ds : Tree)
    (declared? : Option Tree) : Gathers text lo declared?.toList (do
      let value ← match declared? with
        | some t => pure t
        | none =>
          let e ← rec (.assignment ctx)
          endStatement
          pure e
      flawIf (!ds.isHole && value.label != .classDecl)
      finish .exportDefault start [if isPure then markPureFunction value else value]) fun t => [t] := by
  have hend : ∀ value, Gathers text lo [value] (do
      flawIf (!ds.isHole && value.label != .classDecl)
      finish .exportDefault start [if isPure then markPureFunction value else value]) fun t => [t] := by
    intro value
    refine .quiet (quiet_flawIf _) fun _ => .before (fun stop hts => ?_) (.finish rfl fun _ => trivial)
    split
    · exact (markPureFunction_keeps value).spaced hts
    · exact hts
  cases declared? with
  | some t => exact .seq (.pure rfl) hend
  | none => exact .read (hrec _ rfl) fun e => .quiet quiet_endStatement fun _ => .seq (.pure rfl) hend

theorem gathers_exportDefault (hrec : ReadsGoals text rec) (ctx : Context) (start : Nat) (ds : Tree) :
    Gathers text lo [ds] (exportDefault rec ctx start ds) fun t => [t] := by
  refine .quiet (quiet_expectWord _) fun _ => .quiet quiet_token fun s => .quiet quiet_here fun first => ?_
  refine .seq (gathers_laterDecorators hrec ctx ds) fun ds => ?_
  have hnone : Gathers text lo [ds] (pure none) fun t? : Option Tree => t?.toList :=
    .drop (List.nil_sublist _) (.pure rfl)
  refine .quiet quiet_kind fun k => ?_
  cases k with
  | word w escaped =>
    cases escaped with
    | false => exact .seq (gathers_defaultDeclaration? hrec ctx first ds w) (gathers_defaultValue hrec ctx start _ ds)
    | true => exact .seq hnone (gathers_defaultValue hrec ctx start _ ds)
  | _ => exact .seq hnone (gathers_defaultValue hrec ctx start _ ds)

theorem gathers_exportedDeclaration (hrec : ReadsGoals text rec) (ctx : Context) (start : Nat) (ds : Tree) :
    Gathers text lo [ds] (exportedDeclaration rec ctx start ds) fun t => [t] := by
  refine .quiet quiet_here fun first => .seq (gathers_laterDecorators hrec ctx ds) fun ds => .types ?_
  rw [if_neg Bool.false_ne_true, pure_bind]
  refine .seq (gathers_declaration hrec ctx ⟨first, ds, []⟩) fun t => ?_
  split
  · exact .pureWith fun _ _ => Spaced.nil.node rfl trivial
  · exact .pureWith fun _ hts => hts.node rfl trivial

/-- Only a declaration has decorators. -/
theorem gathers_undecorated (ds t : Tree) : Gathers text lo [t] (do
    match t.label with
    | .exportList .. | .exportAll .. | .exportAssign => flawIf !ds.isHole
    | _ => pure ()
    pure t) fun t => [t] := by
  dsimp only
  split
  iterate 3 exact .quiet (quiet_flawIf _) fun _ => .pure rfl
  exact .pure rfl

theorem gathers_exportDeclaration (hrec : ReadsGoals text rec) (ctx : Context) (ds : Tree) :
    Gathers text lo [ds] (exportDeclaration rec ctx ds) fun t => [t] := by
  refine .quiet quiet_here fun start => .quiet (quiet_expectWord _) fun _ => .types (.quiet quiet_kind fun k => ?_)
  split
  · exact gathers_exportDefault hrec ctx start ds
  · split
    · exact .drop (List.nil_sublist _) (.read (reads_exportList start false) (gathers_undecorated ds))
    · exact .drop (List.nil_sublist _) (.read (reads_exportAll start false) (gathers_undecorated ds))
    · exact .rejectBind
    · exact .rejectBind
    · exact .rejectBind
    · exact .seq (gathers_exportedDeclaration hrec ctx start ds) (gathers_undecorated ds)

/-! ### Statements -/

/-- Behind an expression: the statement that it is the label of, or the end. -/
theorem gathers_labeled (hrec : ReadsGoals text rec) (ctx : Context) (start : Nat) (e : Tree) (label? : Option String) :
    Gathers text lo [e] (do
      match label? with
      | some name =>
        let body ← rec (.statement ctx true)
        finish (.labeled name) start [body]
      | none =>
        endStatement
        finish .expressionStatement start [e]) fun t => [t] := by
  cases label? with
  | some name => exact .drop (List.nil_sublist _) (.read (hrec _ rfl) fun body => .finish rfl fun _ => trivial)
  | none => exact .quiet quiet_endStatement fun _ => .finish rfl fun _ => trivial

theorem reads_expressionStatement (hrec : ReadsGoals text rec) (ctx : Context) :
    Reads text (expressionStatement rec ctx) := by
  intro lo
  refine .quiet quiet_here fun start => .read (reads_expression hrec ctx) fun e => ?_
  split
  · refine .quiet (quiet_eatPunct _) fun _ => .ite ?_ ?_
    · exact .quiet (.pure _) (gathers_labeled hrec ctx start e)
    · exact .quiet (.pure _) (gathers_labeled hrec ctx start e)
  · exact .quiet (.pure _) (gathers_labeled hrec ctx start e)

theorem reads_functionStatement (hrec : ReadsGoals text rec) (ctx : Context) (start : Nat) (isAsync alone : Bool) :
    Reads text (functionStatement rec ctx start isAsync alone) := fun lo =>
  .quiet quiet_nextToken fun _ => .quiet (quiet_flawIf _) fun _ =>
    (takes_functionDeclaration hrec ctx start isAsync false).reads lo

theorem reads_lexicalStatement (hrec : ReadsGoals text rec) (ctx : Context) (alone : Bool) (kind : VariableKind) :
    Reads text (lexicalStatement rec ctx alone kind) := fun lo =>
  .quiet quiet_here fun start => .quiet (quiet_flawIf _) fun _ => .quiet (quiet_skipKeyword kind) fun _ =>
    reads_variableStatement hrec ctx start kind lo

theorem reads_letStatement (hrec : ReadsGoals text rec) (ctx : Context) (alone : Bool) :
    Reads text (letStatement rec ctx alone) := by
  intro lo c t c' hc hlo hts h
  obtain ⟨start, _, hhere, h⟩ := run_bind_eq_some h
  obtain ⟨rfl, rfl⟩ := by simpa using hhere
  obtain ⟨next, _, hnext, h⟩ := run_bind_eq_some h
  obtain ⟨-, rfl⟩ := by simpa using hnext
  dsimp only at h
  have hfinish (e : Tree) : Gathers text lo [e] (do
      endStatement
      finish .expressionStatement c.token.span.start [e]) fun t => [t] :=
    .quiet quiet_endStatement fun _ => .finish rfl fun _ => trivial
  have hassign : Gathers text lo [] (do
      let e ← rec (.assignment ctx)
      endStatement
      finish .expressionStatement c.token.span.start [e]) fun t => [t] := .read (hrec _ rfl) hfinish
  have hlabeled : Gathers text lo [] (do
      let e ← expression rec ctx
      finish .expressionStatement c.token.span.start [e]) fun t => [t] :=
    .read (reads_expression hrec ctx) fun e => .finish rfl fun _ => trivial
  split at h
  · exact hassign hc hlo hts h
  · split at h
    · exact hlabeled hc hlo hts h
    · split at h
      · -- the name stands where the statement starts
        obtain ⟨w, c₁, hword, h⟩ := run_bind_eq_some h
        obtain ⟨e, _, hleaf, h⟩ := run_bind_eq_some h
        obtain ⟨rfl, rfl⟩ := by simpa using hleaf
        obtain ⟨hmove, hmade⟩ := leaf_identifier hc hword (rfl : (Label.read w).identifier? = some w) rfl
        exact (hfinish _).runTree hmove hlo (hmade.weaken hlo (Nat.le_refl _)) h
      · exact reads_lexicalStatement hrec ctx alone .letKind lo hc hlo hts h

theorem gathers_classStatement (hrec : ReadsGoals text rec) (ctx : Context) (h : DeclarationHead) (alone : Bool) :
    Gathers text lo [h.decorators] (classStatement rec ctx h alone) fun t => [t] := by
  refine .quiet (quiet_flawIf _) fun _ => .quiet (quiet_atWord _) fun _ => ?_
  exact .ite (gathers_declaration hrec ctx h) .rejectBind

theorem reads_decoratedStatement (hrec : ReadsGoals text rec) (ctx : Context) (alone : Bool) :
    Reads text (decoratedStatement rec ctx alone) := by
  intro lo
  refine .quiet quiet_here fun start => .read (reads_decorators hrec ctx) fun ds => ?_
  refine .quiet (quiet_atWord _) fun _ => .ite (gathers_exportDeclaration hrec ctx ds) ?_
  exact .quiet (quiet_modifiers _) fun ms => gathers_classStatement hrec ctx ⟨start, ds, ms⟩ alone

theorem reads_softWordStatement (hrec : ReadsGoals text rec) (ctx : Context) (alone : Bool) (w : String) :
    Reads text (softWordStatement rec ctx alone w) := by
  intro lo
  have hexpression := reads_expressionStatement hrec ctx lo
  refine .quiet quiet_here fun start => ?_
  split
  · exact reads_letStatement hrec ctx alone lo
  · refine .quiet quiet_nextToken fun next => .ite (.quiet quiet_advance fun _ => ?_) hexpression
    exact reads_functionStatement hrec ctx start true alone lo
  · exact .quiet quiet_startsUsing fun _ => .ite (reads_lexicalStatement hrec ctx alone .using lo) hexpression
  · exact .quiet quiet_startsAwaitUsing fun _ => .ite (reads_lexicalStatement hrec ctx alone .awaitUsing lo) hexpression
  · refine .types (.quiet (quiet_looksLike _) fun _ => ?_)
    rw [Bool.and_false, Bool.false_and, if_neg Bool.false_ne_true]
    exact hexpression

theorem reads_importStatement (hrec : ReadsGoals text rec) (ctx : Context) :
    Reads text (importStatement rec ctx) := by
  intro lo
  refine .quiet quiet_nextToken fun next => ?_
  split
  · exact reads_expressionStatement hrec ctx lo
  · exact reads_expressionStatement hrec ctx lo
  · exact reads_importDeclaration ctx lo

theorem reads_wordStatement (hrec : ReadsGoals text rec) (ctx : Context) (alone : Bool) (w : String) :
    Reads text (wordStatement rec ctx alone w) := by
  intro lo
  have hhole {start : Nat} {p : Parse Tree} (hp : Gathers text lo [.hole start] p fun t => [t]) :
      Gathers text lo [] p fun t => [t] := .before (fun stop hts => hts.withHole start) hp
  refine .quiet quiet_here fun start => ?_
  split
  · exact .quiet quiet_advance fun _ => reads_variableStatement hrec ctx start .var lo
  · refine .types (.quiet quiet_nextToken fun _ => ?_)
    rw [Bool.false_and, if_neg Bool.false_ne_true]
    exact reads_lexicalStatement hrec ctx alone .const lo
  · exact reads_functionStatement hrec ctx start false alone lo
  · exact hhole (gathers_classStatement hrec ctx ⟨start, .hole start, []⟩ alone)
  · exact reads_ifStatement hrec ctx lo
  · exact reads_forStatement hrec ctx lo
  · exact reads_whileStatement hrec ctx lo
  · exact reads_doStatement hrec ctx lo
  · exact reads_jumpStatement (fun _ => rfl) (fun _ => rfl) lo
  · exact reads_jumpStatement (fun _ => rfl) (fun _ => rfl) lo
  · exact reads_returnStatement hrec ctx lo
  · exact reads_withStatement hrec ctx lo
  · exact reads_switchStatement hrec ctx lo
  · exact reads_throwStatement hrec ctx lo
  · exact reads_tryStatement hrec ctx lo
  · exact reads_debuggerStatement lo
  · exact reads_importStatement hrec ctx lo
  · exact hhole (gathers_exportDeclaration hrec ctx (.hole start))
  · exact .ite (reads_expressionStatement hrec ctx lo) (reads_softWordStatement hrec ctx alone w lo)

theorem reads_plainStatement (hrec : ReadsGoals text rec) (ctx : Context) (alone : Bool) :
    Reads text (plainStatement rec ctx alone) := by
  intro lo
  refine .quiet quiet_here fun start => .quiet quiet_kind fun k => ?_
  split
  · exact reads_block hrec ctx lo
  · exact .quiet quiet_advance fun _ => .finish rfl fun _ => trivial
  · exact reads_decoratedStatement hrec ctx alone lo
  · exact reads_wordStatement hrec ctx alone _ lo
  · exact reads_expressionStatement hrec ctx lo

/-- Only the first variable of a list is noted. -/
theorem markPureList_keeps (kind : VariableKind) (s : Span) (d : Tree) (ds : List Tree) :
    Keeps text (.node (.variableList kind) s (d :: ds))
      (.node (.variableList kind) s (markPureStatement.first d :: ds)) := by
  have hfirst : Keeps text d (markPureStatement.first d) := by
    unfold markPureStatement.first
    split
    next p v => exact ((Keeps.refl p).cons ((markPureFunction_keeps v).head [])).node rfl rfl rfl fun _ => trivial
    next => exact .refl _
  exact (hfirst.head ds).node rfl rfl rfl fun _ => trivial

theorem markPureStatement_keeps (t : Tree) : Keeps text t (markPureStatement t) := by
  unfold markPureStatement
  split
  · exact markPureFunction_keeps _
  · exact markPureList_keeps _ _ _ _
  · exact ((markPureFunction_keeps _).head []).node rfl rfl rfl fun _ => trivial
  · exact ((markPureList_keeps _ _ _ _).head []).node rfl rfl rfl fun _ => trivial
  · exact ((markPureFunction_keeps _).head []).node rfl rfl rfl fun _ => trivial
  · exact .refl _

theorem reads_statement (hrec : ReadsGoals text rec) (ctx : Context) (alone : Bool) :
    Reads text (statement rec ctx alone) := by
  intro lo
  refine .quiet quiet_token fun s => .read (reads_plainStatement hrec ctx alone) fun t => .pureWith fun stop hts => ?_
  split
  · exact (markPureStatement_keeps t).spaced hts
  · exact hts

end LiveNotes.Script
