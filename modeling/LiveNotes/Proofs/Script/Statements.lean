import LiveNotes.Proofs.Script.Reading

/-! Statements whose tokens are known: lists of exports, exports and imports of all names of a module, and
constants for an access or a call. -/

namespace LiveNotes.Script

/-- The text of the next `n` tokens. -/
def Cursor.spanTo (c : Cursor) (n : Nat) : Span := ⟨c.token.span.start, (Cursor.next^[n] c).lastStop⟩

namespace Grammar

open Parse

variable {c c' : Cursor} {ctx : Context} {rec : Readers}

/-! ### Names -/

/-- A variable that a list of exports may name. -/
def IsLocal (name : String) : Prop := isReserved name = false ∧ strictWords.contains name = false

theorem run_useName {w : String} (hw : IsLocal w) (ctx : Context) (c : Cursor) : useName ctx w c = some ((), c) := by
  have hawait : (w == "await") = false := by
    rw [beq_eq_false_iff_ne]
    rintro rfl
    exact absurd hw.2 (by decide)
  have hyield : (w == "yield") = false := by
    rw [beq_eq_false_iff_ne]
    rintro rfl
    exact absurd hw.2 (by decide)
  simp [useName, hawait, hyield]

theorem run_identifierText {w : String} {escaped : Bool} (hw : IsLocal w) (hc : c.token.kind = .word w escaped) :
    identifierText ctx c = some (w, c.next) := by
  simp [identifierText, hc, hw.1, run_useName hw]

/-- The name on the far side of a module boundary that a token stands for. -/
def nameOf? : TokenKind → Option ExportedName
  | .word w _ => some ⟨w, false⟩
  | .string v false => some ⟨v, true⟩
  | _ => none

theorem run_exportedName {name : ExportedName} (h : nameOf? c.token.kind = some name) :
    exportedName c = some (name, c.next) := by
  cases hkind : c.token.kind with
  | word w e =>
    rw [hkind, nameOf?, Option.some.injEq] at h
    simp [exportedName, hkind, h]
  | string v surrogates =>
    cases surrogates with
    | false =>
      rw [hkind, nameOf?, Option.some.injEq] at h
      simp [exportedName, hkind, h]
    | true => simp [hkind, nameOf?] at h
  | _ => simp [hkind, nameOf?] at h

theorem run_atExportedName (c : Cursor) : ∃ b, atExportedName c = some (b, c) := by
  cases hkind : c.token.kind <;> simp [atExportedName, hkind]

theorem run_exportName {name exported : ExportedName} (htypes : c.dialect.types = false)
    (hname : nameOf? c.token.kind = some name) (has : c.next.token.kind = .word "as" false)
    (hexported : nameOf? c.next.next.token.kind = some exported) :
    ∃ span, exportName false c = some (.node (.exportName name exported false) span [], c.next.next.next) := by
  have hfirst := run_exportedName hname
  have hsecond := run_exportedName hexported
  obtain ⟨b, hb⟩ := run_atExportedName c.next
  exact ⟨_, by simp [exportName, specifier, renamed, htypes, hfirst, hb, has, hsecond]; rfl⟩

/-! ### Lists of exports -/

/-- The token that writes a name on the far side of a module boundary. -/
def nameKind (name : ExportedName) : TokenKind := if name.quoted then .string name.text false else .word name.text false

theorem nameOf?_nameKind (name : ExportedName) : nameOf? (nameKind name) = some name := by
  obtain ⟨text, quoted⟩ := name
  cases quoted <;> rfl

def specifierTokens (here : String) (name : ExportedName) : List TokenKind :=
  [.word here false, .word "as" false, nameKind name]

/-- The tokens of variables and the names that they are exported by. -/
def specifiersTokens : List (String × ExportedName) → List TokenKind
  | [] => []
  | [(here, name)] => specifierTokens here name
  | (here, name) :: more => specifierTokens here name ++ .punct .comma :: specifiersTokens more

theorem listed_specifiers {names : List (String × ExportedName)} (hnames : names ≠ []) {rest : List TokenKind}
    (htypes : c.dialect.types = false)
    (hshows : c.Shows (specifiersTokens names ++ .punct .rightBrace :: rest)) :
    ∃ trees, Listed .rightBrace (exportName false) c trees (Cursor.next^[(specifiersTokens names).length] c) ∧
      trees.map Tree.label = names.map (fun n => .exportName ⟨n.1, false⟩ n.2 false) ∧ ∀ t ∈ trees, t.kids = [] := by
  induction names generalizing c with
  | nil => contradiction
  | cons first more ih =>
    obtain ⟨here, name⟩ := first
    have hitem : c.Shows (specifierTokens here name) → ∃ span, exportName false c =
        some (.node (.exportName ⟨here, false⟩ name false) span [], c.next.next.next) := by
      rintro ⟨hhere, has, hname, -⟩
      exact run_exportName htypes (congrArg nameOf? hhere.kind) has.kind
        ((congrArg nameOf? hname.kind).trans (nameOf?_nameKind name))
    cases more with
    | nil =>
      obtain ⟨hfirst, hclose, -⟩ := (Cursor.shows_append _).1 hshows
      obtain ⟨span, hrun⟩ := hitem hfirst
      have hopen : c.token.kind ≠ .punct .rightBrace := by
        rw [hfirst.1.kind]
        exact TokenKind.noConfusion
      refine ⟨_, .last hopen hrun hclose.kind Punct.noConfusion, rfl, ?_⟩
      intro t ht
      rw [List.mem_singleton.1 ht]
      rfl
    | cons second more =>
      have htokens : specifiersTokens ((here, name) :: second :: more) =
          specifierTokens here name ++ .punct .comma :: specifiersTokens (second :: more) := rfl
      rw [htokens, List.append_assoc] at hshows
      obtain ⟨hfirst, hcomma, hmore⟩ := (Cursor.shows_append _).1 hshows
      obtain ⟨span, hrun⟩ := hitem hfirst
      obtain ⟨trees, hlisted, hlabels, hkids⟩ :=
        ih (c := c.next.next.next.next) (List.cons_ne_nil _ _) htypes hmore
      have hopen : c.token.kind ≠ .punct .rightBrace := by
        rw [hfirst.1.kind]
        exact TokenKind.noConfusion
      refine ⟨_, .more hopen hrun hcomma.kind hlisted, ?_, ?_⟩
      · rw [List.map_cons, hlabels]
        rfl
      · exact List.forall_mem_cons.2 ⟨rfl, hkids⟩

/-- The statement that exports the given variables by the given names. -/
structure IsExportList (names : List (String × ExportedName)) (t : Tree) : Prop where
  label : t.label = .exportList none false
  specifiers : t.kids.map Tree.label = names.map fun n => .exportName ⟨n.1, false⟩ n.2 false
  leaves : ∀ k ∈ t.kids, k.kids = []

theorem isLocalName_of_label {x : String} {name : ExportedName} {t : Tree} (hx : IsLocal x)
    (hlabel : t.label = .exportName ⟨x, false⟩ name false) : isLocalName t = true := by
  obtain ⟨label, span, kids⟩ := t
  rw [Tree.label_node] at hlabel
  subst hlabel
  simp only [isLocalName, bindsVariable, hx.1, hx.2, Bool.not_false, Bool.and_self]

theorem run_exportList {names : List (String × ExportedName)} (hnames : names ≠ []) (hlocal : ∀ n ∈ names, IsLocal n.1)
    (htypes : c.dialect.types = false) (hsize : names.length ≤ c.size) (start : Nat)
    (hshows : c.Shows (.punct .leftBrace :: specifiersTokens names ++
      [.punct .rightBrace, .punct .semicolon])) :
    ∃ t, exportList start false c = some (t, Cursor.next^[(specifiersTokens names).length + 3] c) ∧
      IsExportList names t := by
  obtain ⟨hopen, hshows⟩ := hshows
  obtain ⟨trees, hlisted, hlabels, hkids⟩ := listed_specifiers (c := c.next) hnames htypes hshows
  obtain ⟨-, hclose, hend, -⟩ := (Cursor.shows_append _).1 hshows
  have hlength : trees.length = names.length := by
    rw [← List.length_map (f := Tree.label), hlabels, List.length_map]
  have hlist := run_commaList hlisted (hlength ▸ hsize)
  have hnamed : trees.all isLocalName = true := by
    refine List.all_eq_true.2 fun t ht => ?_
    have hlabel := List.mem_map_of_mem (f := Tree.label) ht
    rw [hlabels] at hlabel
    obtain ⟨n, hn, hlabel⟩ := List.mem_map.1 hlabel
    exact isLocalName_of_label (hlocal n hn) hlabel.symm
  have hlast : Cursor.next^[(specifiersTokens names).length + 3] c =
      (Cursor.next^[(specifiersTokens names).length] c.next).next.next := by
    rw [Cursor.next_iterate, Cursor.next_iterate]
    rfl
  have hrun : exportList start false c =
      some (.node (.exportList none false) ⟨start, (Cursor.next^[(specifiersTokens names).length + 3] c).lastStop⟩ trees,
        Cursor.next^[(specifiersTokens names).length + 3] c) := by
    rw [hlast]
    simp [exportList, run_expectPunct hopen.kind, hlist, run_expectPunct hclose.kind, hend.kind,
      run_endStatement hend.kind, hnamed]
  exact ⟨_, hrun, rfl, hlabels, hkids⟩

/-! ### Statements by their first word -/

theorem run_statement {w : String} {t : Tree} (hc : c.IsAt (.word w false)) (alone : Bool)
    (h : wordStatement rec ctx alone w c = some (t, c')) : statement rec ctx alone c = some (t, c') := by
  simp [statement, plainStatement, hc.kind, hc.pureFunction, h]

theorem run_statement_exportList (rec : Readers) (ctx : Context) {names : List (String × ExportedName)} (hnames : names ≠ [])
    (hlocal : ∀ n ∈ names, IsLocal n.1) (htypes : c.dialect.types = false) (hsize : names.length ≤ c.size)
    (hshows : c.Shows (.word "export" false :: .punct .leftBrace :: specifiersTokens names ++
      [.punct .rightBrace, .punct .semicolon])) :
    ∃ t, statement rec ctx false c = some (t, Cursor.next^[(specifiersTokens names).length + 4] c) ∧
      IsExportList names t := by
  obtain ⟨hexport, hshows⟩ := hshows
  obtain ⟨t, hlist, ht⟩ := run_exportList (c := c.next) hnames hlocal htypes hsize c.token.span.start hshows
  refine ⟨t, run_statement hexport false ?_, ht⟩
  simp [wordStatement, exportDeclaration, run_expectWord hexport.kind, hshows.1.kind, hlist, ht.label, Tree.isHole, Tree.hole]

theorem run_sourceText {source : String} {surrogates : Bool} (hc : c.token.kind = .string source surrogates) :
    sourceText c = some (source, c.next) := by
  simp [sourceText, hc]

/-- There are no attributes in front of a semicolon. -/
theorem run_importAttributes (hc : c.token.kind = .punct .semicolon) : importAttributes c = some ([], c) := by
  simp [importAttributes, attributesWord?, hc]

theorem run_statement_exportAll {source : String}
    (hshows : c.Shows [.word "export" false, .punct .star, .word "from" false,
      .string source false, .punct .semicolon]) :
    statement rec ctx false c = some (.node (.exportAll none source false) (c.spanTo 5) [], Cursor.next^[5] c) := by
  obtain ⟨hexport, hstar, hfrom, hsource, hend, -⟩ := hshows
  refine run_statement hexport false ?_
  simp [wordStatement, exportDeclaration, run_expectWord hexport.kind, hstar.kind, exportAll,
    run_expectPunct hstar.kind, hfrom.kind, run_expectWord hfrom.kind, run_sourceText hsource.kind,
    run_importAttributes hend.kind, run_endStatement hend.kind, Tree.isHole, Tree.hole, Cursor.spanTo]

/-- Nothing in front of a star says how to import. -/
theorem run_importHead (hc : c.token.kind = .punct .star) : importHead c = some ({}, c) := by
  simp [importHead, hc]

theorem run_importAll {name : String} (hname : IsLocal name)
    (hshows : c.Shows [.punct .star, .word "as" false, .word name false]) :
    importAll ctx c = some (.node (.importAll name) (c.spanTo 3) [], Cursor.next^[3] c) := by
  obtain ⟨hstar, has, hbound, -⟩ := hshows
  simp [importAll, run_expectPunct hstar.kind, run_expectWord has.kind, run_identifierText hname hbound.kind, Cursor.spanTo]

theorem run_importFrom {source : String} (start : Nat) (specifiers : List Tree)
    (hshows : c.Shows [.word "from" false, .string source false, .punct .semicolon]) :
    importFrom start {} specifiers c = some (.node (.importDecl .evaluation source false false)
      ⟨start, (Cursor.next^[3] c).lastStop⟩ specifiers, Cursor.next^[3] c) := by
  obtain ⟨hfrom, hsource, hend, -⟩ := hshows
  simp [importFrom, run_expectWord hfrom.kind, run_sourceText hsource.kind, run_importAttributes hend.kind,
    run_endStatement hend.kind]

theorem run_importClause_all {source name : String} (hname : IsLocal name) (start : Nat)
    (hshows : c.Shows ([.punct .star, .word "as" false, .word name false] ++
      [.word "from" false, .string source false, .punct .semicolon])) :
    importClause ctx start {} c = some (.node (.importDecl .evaluation source false false)
      ⟨start, (Cursor.next^[6] c).lastStop⟩ [.node (.importAll name) (c.spanTo 3) []], Cursor.next^[6] c) := by
  obtain ⟨hall, hfrom⟩ := (Cursor.shows_append _).1 hshows
  have hstar := hall.1.kind
  have hnames : importNames ctx false c = some ([.node (.importAll name) (c.spanTo 3) []], Cursor.next^[3] c) := by
    simp [importNames, hstar, run_importAll hname hall]
  have hrest := run_importFrom start [.node (.importAll name) (c.spanTo 3) []] hfrom
  simpa [importClause, hstar, hnames] using hrest

theorem run_statement_importAll {source name : String} (hname : IsLocal name)
    (hshows : c.Shows [.word "import" false, .punct .star, .word "as" false, .word name false,
      .word "from" false, .string source false, .punct .semicolon]) :
    statement rec ctx false c =
      some (.node (.importDecl .evaluation source false false) (c.spanTo 7)
        [.node (.importAll name) (c.next.spanTo 3) []], Cursor.next^[7] c) := by
  obtain ⟨himport, hclause⟩ := hshows
  have hstar := hclause.1.kind
  refine run_statement himport false ?_
  simp [wordStatement, importStatement, importDeclaration, run_expectWord himport.kind, hstar, run_importHead hstar,
    run_importClause_all hname c.token.span.start hclause, Cursor.spanTo]

/-! ### Values -/

/-- A token that stands alone for a value, or that an access starts with. -/
def OpensValue : TokenKind → Prop
  | .word w escaped => IsLocal w ∧ w ≠ "async" ∧ escaped = false
  | .number _ | .string _ _ => True
  | _ => False

/-- A token that goes on with no value. -/
def EndsValue (k : TokenKind) : Prop :=
  k = .punct .semicolon ∨ k = .punct .rightBracket ∨ k = .punct .rightParen

theorem run_primary_word {w : String} (hw : IsLocal w) (hasync : w ≠ "async") (hc : c.token.kind = .word w false) :
    primary rec ctx c = some (.node (.read w) (c.spanTo 1) [], c.next) := by
  have hname : identifierText ctx c = some (w, c.next) := run_identifierText hw hc
  have hword : primaryWord rec ctx w c = some (.node (.read w) (c.spanTo 1) [], c.next) := by
    unfold primaryWord
    split
    all_goals first
      | exact absurd hw.1 (by decide)
      | simp [hname, hasync, Cursor.spanTo]
  simp [primary, hc, hword]

theorem run_arrow?_none {k : TokenKind} (hc : c.IsAt k) (hk : OpensValue k)
    (harrow : c.next.token.kind ≠ .punct .arrow) : arrow? rec ctx c = some (none, c) := by
  have hlikelihood : arrowLikelihood c = some (.no, c) := by
    cases k with
    | word w escaped =>
      obtain ⟨-, hasync, rfl⟩ := hk
      simp [arrowLikelihood, hc.kind, hasync]
    | number d => simp [arrowLikelihood, hc.kind]
    | string v surrogates => simp [arrowLikelihood, hc.kind]
    | _ => contradiction
  have hname : nameArrow? rec ctx c = some (none, c) := by
    cases k with
    | word w escaped =>
      obtain ⟨hw, hasync, rfl⟩ := hk
      simp [nameArrow?, atIdentifier, hc.kind, isIdentifier, hw.1, harrow, hasync]
    | number d => simp [nameArrow?, atIdentifier, hc.kind, isIdentifier]
    | string v surrogates => simp [nameArrow?, atIdentifier, hc.kind, isIdentifier]
    | _ => contradiction
  simp [arrow?, hlikelihood, hname]

/-- A value that is an access alone is read as one by the readers of operators. -/
theorem run_unary {k : TokenKind} {t : Tree} (hc : c.IsAt k) (hk : OpensValue k)
    (haccesses : accesses rec ctx true c = some (t, c')) (hend : EndsValue c'.token.kind) :
    unary rec ctx c = some (t, c') := by
  have hpostfix : postfix_ rec ctx c = some (t, c') := by
    rcases hend with hend | hend | hend
    · simp [postfix_, haccesses, hend]
    · simp [postfix_, haccesses, hend]
    · simp [postfix_, haccesses, hend]
  cases k with
  | word w escaped =>
    obtain ⟨hw, -, rfl⟩ := hk
    have hnone : unaryOp? (.word w false) = none := by
      unfold unaryOp?
      split
      all_goals first
        | rfl
        | contradiction
        | next heq => exact absurd (TokenKind.word.inj heq).1 (by rintro rfl; exact absurd hw.1 (by decide))
    have hawait : w ≠ "await" := by
      rintro rfl
      exact absurd hw.2 (by decide)
    simp [unary, hc.kind, hnone, atAwait, hawait, hpostfix]
  | number d => simp [unary, hc.kind, unaryOp?, atAwait, hpostfix]
  | string v surrogates => simp [unary, hc.kind, unaryOp?, atAwait, hpostfix]
  | _ => contradiction

theorem run_binary {k : TokenKind} {t : Tree} (hc : c.IsAt k) (hk : OpensValue k)
    (haccesses : accesses rec ctx true c = some (t, c')) (hend : EndsValue c'.token.kind)
    (htypes : c'.dialect.types = false) : binary rec ctx 0 c = some (t, c') := by
  have hunary := run_unary hc hk haccesses hend
  have hoperand : operand rec ctx 0 c = some (t, c') := by
    cases k with
    | word w escaped => simp [operand, hc.kind, withNote, hunary, hc.pure]
    | number d => simp [operand, hc.kind, withNote, hunary, hc.pure]
    | string v surrogates => simp [operand, hc.kind, withNote, hunary, hc.pure]
    | _ => contradiction
  have hstop : binaryStep rec ctx 0 c.token.span.start t c' = some (none, c') := by
    rcases hend with hend | hend | hend
    · simp [binaryStep, atTypeClaim, htypes, infixOp?, hend, infixOfPunct?]
    · simp [binaryStep, atTypeClaim, htypes, infixOp?, hend, infixOfPunct?]
    · simp [binaryStep, atTypeClaim, htypes, infixOp?, hend, infixOfPunct?]
  simp [binary, hoperand, run_loop_stop hstop]

theorem run_assignment {k : TokenKind} {t : Tree} (hc : c.IsAt k) (hk : OpensValue k)
    (harrow : c.next.token.kind ≠ .punct .arrow) (hyields : ctx.yields = false)
    (haccesses : accesses rec ctx true c = some (t, c')) (hend : EndsValue c'.token.kind)
    (htypes : c'.dialect.types = false) : assignment rec ctx c = some (t, c') := by
  have hbinary := run_binary hc hk haccesses hend htypes
  have hnone : arrow? rec ctx c = some (none, c) := run_arrow?_none hc hk harrow
  have hrest : ∀ start, conditionalRest rec ctx start t c' = some (t, c') := by
    intro start
    rcases hend with hend | hend | hend
    · simp [conditionalRest, hend]
    · simp [conditionalRest, hend]
    · simp [conditionalRest, hend]
  have hassign : assignOp? c' = some (none, c') := by
    rcases hend with hend | hend | hend
    · simp [assignOp?, hend, assignOfPunct?]
    · simp [assignOp?, hend, assignOfPunct?]
    · simp [assignOp?, hend, assignOfPunct?]
  simp [assignment, hc.pureFunction, hyields, hnone, hbinary, hassign, hrest]

theorem run_access_none (hend : EndsValue c.token.kind) (calls : Bool) (start : Nat) (a : Accessed) :
    access rec ctx calls start a c = some (none, c) := by
  rcases hend with hend | hend | hend
  · simp [access, hend]
  · simp [access, hend]
  · simp [access, hend]

theorem run_accesses_alone {t : Tree} (hprimary : primary rec ctx c = some (t, c')) (hend : EndsValue c'.token.kind) :
    accesses rec ctx true c = some (t, c') := by
  simp [accesses, hprimary, run_loop_stop (run_access_none hend _ _ _)]

/-- Accesses behind a value, one after the other. -/
theorem run_accesses {t : Tree} {c₁ : Cursor} {a : Accessed} {n : Nat} (hprimary : primary rec ctx c = some (t, c₁))
    (hsteps : repeated (access rec ctx true c.token.span.start) n { tree := t } c₁ = some (a, c'))
    (hchained : a.chained = false) (hend : EndsValue c'.token.kind) (hsize : n ≤ c₁.size) :
    accesses rec ctx true c = some (a.tree, c') := by
  simp [accesses, hprimary, run_loop hsteps (run_access_none hend _ _ _) hsize, hchained]

/-- An access behind a name. -/
theorem run_accesses_once {t : Tree} {c₁ : Cursor} {a : Accessed} (hprimary : primary rec ctx c = some (t, c₁))
    (haccess : access rec ctx true c.token.span.start { tree := t } c₁ = some (some a, c'))
    (hchained : a.chained = false) (hend : EndsValue c'.token.kind) (hsize : 1 ≤ c₁.size) :
    accesses rec ctx true c = some (a.tree, c') :=
  run_accesses hprimary (repeated_succ haccess 0) hchained hend hsize

theorem run_assignment_string (ctx : Context) {v : String} {surrogates : Bool} {last : TokenKind} (hyields : ctx.yields = false)
    (htypes : c.dialect.types = false) (hlast : EndsValue last)
    (hshows : c.Shows [.string v surrogates, last]) :
    assignment rec ctx c = some (.node (.string v surrogates) (c.spanTo 1) [], c.next) := by
  obtain ⟨hc, hnext, -⟩ := hshows
  have hend : EndsValue c.next.token.kind := hnext.kind ▸ hlast
  have harrow : c.next.token.kind ≠ .punct .arrow := by
    rcases hend with hend | hend | hend <;> simp [hend]
  have hprimary : primary rec ctx c = some (.node (.string v surrogates) (c.spanTo 1) [], c.next) := by
    simp [primary, hc.kind, Cursor.spanTo]
  exact run_assignment hc trivial harrow hyields (run_accesses_alone hprimary hend) hend htypes

theorem run_assignment_number (ctx : Context) {d : String} {last : TokenKind} (hyields : ctx.yields = false)
    (htypes : c.dialect.types = false) (hlast : EndsValue last)
    (hshows : c.Shows [.number d, last]) :
    assignment rec ctx c = some (.node (.number d) (c.spanTo 1) [], c.next) := by
  obtain ⟨hc, hnext, -⟩ := hshows
  have hend : EndsValue c.next.token.kind := hnext.kind ▸ hlast
  have harrow : c.next.token.kind ≠ .punct .arrow := by
    rcases hend with hend | hend | hend <;> simp [hend]
  have hprimary : primary rec ctx c = some (.node (.number d) (c.spanTo 1) [], c.next) := by
    simp [primary, hc.kind, Cursor.spanTo]
  exact run_assignment hc trivial harrow hyields (run_accesses_alone hprimary hend) hend htypes

/-- An access to what a string in brackets names. -/
theorem run_access_string (ctx : Context) {v : String} (start : Nat) (base : Tree) (hyields : ctx.yields = false)
    (hdecorator : ctx.decorator = false) (htypes : c.dialect.types = false) (n : Nat)
    (hshows : c.Shows [.punct .leftBracket, .string v false, .punct .rightBracket]) :
    access (readers (n + 1)) ctx true start { tree := base } c =
      some (some ⟨.node (.index false) ⟨start, c.next.next.next.lastStop⟩
        [base, .node (.string v false) (c.next.spanTo 1) []], false⟩, c.next.next.next) := by
  obtain ⟨hopen, hkey⟩ := hshows
  have hclose := hkey.2.1
  have hstring : readers (n + 1) (.assignment ctx.inside) c.next =
      some (.node (.string v false) (c.next.spanTo 1) [], c.next.next) :=
    run_assignment_string ctx.inside hyields htypes (.inr (.inl rfl)) hkey
  have hexpression : expression (readers (n + 1)) ctx.inside c.next =
      some (.node (.string v false) (c.next.spanTo 1) [], c.next.next) := by
    simp [expression, hstring, hclose.kind]
  simp [access, hopen.kind, hdecorator, indexKey, run_expectPunct hopen.kind, hexpression, run_expectPunct hclose.kind]

theorem run_assignment_index (ctx : Context) {x v : String} (hx : IsLocal x) (hasync : x ≠ "async") (hyields : ctx.yields = false)
    (hdecorator : ctx.decorator = false) (htypes : c.dialect.types = false) (hsize : 1 ≤ c.size) (n : Nat)
    (hshows : c.Shows [.word x false, .punct .leftBracket, .string v false,
      .punct .rightBracket, .punct .semicolon]) :
    assignment (readers (n + 1)) ctx c = some (.node (.index false) (c.spanTo 4)
      [.node (.read x) (c.spanTo 1) [], .node (.string v false) (c.next.next.spanTo 1) []], c.next.next.next.next) := by
  obtain ⟨hc, hopen, hkey, hclose, hsemicolon, -⟩ := hshows
  have hend : EndsValue c.next.next.next.next.token.kind := .inl hsemicolon.kind
  have harrow : c.next.token.kind ≠ .punct .arrow := by simp [hopen.kind]
  have haccess := run_access_string ctx c.token.span.start (.node (.read x) (c.spanTo 1) []) hyields hdecorator
    (c := c.next) htypes n ⟨hopen, hkey, hclose, trivial⟩
  have hprimary : primary (readers (n + 1)) ctx c = some (.node (.read x) (c.spanTo 1) [], c.next) :=
    run_primary_word hx hasync hc.kind
  have haccesses := run_accesses_once hprimary haccess rfl hend hsize
  exact run_assignment hc ⟨hx, hasync, rfl⟩ harrow hyields haccesses hend htypes

theorem run_assignment_call (ctx : Context) {f d : String} (hf : IsLocal f) (hasync : f ≠ "async") (hyields : ctx.yields = false)
    (htypes : c.dialect.types = false) (hsize : 1 ≤ c.size) (n : Nat)
    (hshows : c.Shows [.word f false, .punct .leftParen, .number d,
      .punct .rightParen, .punct .semicolon]) :
    assignment (readers (n + 1)) ctx c = some (.node (.call false false) (c.spanTo 4)
      [.node (.read f) (c.spanTo 1) [], .node (.number d) (c.next.next.spanTo 1) []], c.next.next.next.next) := by
  obtain ⟨hc, hopen, hitem⟩ := hshows
  obtain ⟨hclose, hsemicolon, -⟩ := hitem.2
  have hend : EndsValue c.next.next.next.next.token.kind := .inl hsemicolon.kind
  have harrow : c.next.token.kind ≠ .punct .arrow := by simp [hopen.kind]
  have hnumber : readers (n + 1) (.assignment ctx.inside) c.next.next =
      some (.node (.number d) (c.next.next.spanTo 1) [], c.next.next.next) :=
    run_assignment_number ctx.inside hyields htypes (.inr (.inr rfl)) ⟨hitem.1, hclose, trivial⟩
  have hspread : spreadOr (readers (n + 1)) ctx c.next.next =
      some (.node (.number d) (c.next.next.spanTo 1) [], c.next.next.next) := by
    simp [spreadOr, hitem.1.kind, hnumber]
  have hlisted : Listed .rightParen (spreadOr (readers (n + 1)) ctx) c.next.next
      [.node (.number d) (c.next.next.spanTo 1) []] c.next.next.next :=
    .last (by simp [hitem.1.kind]) hspread hclose.kind Punct.noConfusion
  have harguments : arguments (readers (n + 1)) ctx c.next =
      some ([.node (.number d) (c.next.next.spanTo 1) []], c.next.next.next.next) := by
    simp [arguments, run_expectPunct hopen.kind, run_commaList hlisted hsize, run_expectPunct hclose.kind]
  have haccess : access (readers (n + 1)) ctx true c.token.span.start
      { tree := .node (.read f) (c.spanTo 1) [] } c.next =
      some (some ⟨.node (.call false false) (c.spanTo 4)
        [.node (.read f) (c.spanTo 1) [], .node (.number d) (c.next.next.spanTo 1) []], false⟩, c.next.next.next.next) := by
    simp [access, hopen.kind, callOf, harguments, withoutArguments, Cursor.spanTo]
  have hprimary : primary (readers (n + 1)) ctx c = some (.node (.read f) (c.spanTo 1) [], c.next) :=
    run_primary_word hf hasync hc.kind
  have haccesses := run_accesses_once hprimary haccess rfl hend hsize
  exact run_assignment hc ⟨hf, hasync, rfl⟩ harrow hyields haccesses hend htypes

/-- A statement that binds a constant, of which the pattern and the value are known. -/
theorem run_statement_pattern {p value : Tree} {c₁ : Cursor} {n : Nat} (htypes : c.dialect.types = false)
    (hconst : c.IsAt (.word "const" false)) (hpattern : pattern (readers n) ctx c.next = some (p, c₁))
    (htypes' : c₁.dialect.types = false) (hassign : c₁.token.kind = .punct .assign)
    (hvalue : assignment (readers n) ctx c₁.next = some (value, c')) (hfilled : value.isHole = false)
    (hend : c'.token.kind = .punct .semicolon) :
    statement (readers (n + 1)) ctx false c = some (.node (.variableList .const) ⟨c.token.span.start, c'.next.lastStop⟩
      [.node .declarator ⟨c.next.token.span.start, c'.lastStop⟩ [p, value]], c'.next) := by
  have hleft : readers (n + 1) (.pattern ctx) c.next = some (p, c₁) := hpattern
  have hright : readers (n + 1) (.assignment ctx) c₁.next = some (value, c') := hvalue
  have hdeclarator : declarator (readers (n + 1)) ctx .const c.next =
      some (.node .declarator ⟨c.next.token.span.start, c'.lastStop⟩ [p, value], c') := by
    simp [declarator, hleft, isDisposed, htypes', typeAnnotation, hassign, hright]
  have hlist : variableList (readers (n + 1)) ctx c.token.span.start .const c.next =
      some (.node (.variableList .const) ⟨c.token.span.start, c'.lastStop⟩
        [.node .declarator ⟨c.next.token.span.start, c'.lastStop⟩ [p, value]], c') := by
    rw [variableList, run_bind, hdeclarator, Option.bind_some, run_bind,
      run_many_nil (show _ = some (none, c') by simp [hend])]
    rfl
  have hfull : lacksValue .const false (.node .declarator ⟨c.next.token.span.start, c'.lastStop⟩ [p, value]) = false := by
    simp [lacksValue, hfilled]
  refine run_statement hconst false ?_
  simp [wordStatement, htypes, lexicalStatement, skipKeyword, variableStatement, hlist, hfull, run_endStatement hend]

/-- The statement that binds a name. -/
theorem run_statement_const {x : String} {value : Tree} (hx : IsLocal x) (htypes : c.dialect.types = false) (n : Nat)
    (hshows : c.Shows [.word "const" false, .word x false, .punct .assign])
    (hvalue : assignment (readers n) ctx c.next.next.next = some (value, c')) (hfilled : value.isHole = false)
    (hend : c'.token.kind = .punct .semicolon) :
    statement (readers (n + 1)) ctx false c = some (.node (.variableList .const) ⟨c.token.span.start, c'.next.lastStop⟩
      [.node .declarator ⟨c.next.token.span.start, c'.lastStop⟩ [.node (.binding x) (c.next.spanTo 1) [], value]], c'.next) := by
  obtain ⟨hconst, hname, hassign, -⟩ := hshows
  have hpattern : pattern (readers n) ctx c.next = some (.node (.binding x) (c.next.spanTo 1) [], c.next.next) := by
    simp [pattern, hname.kind, bindingName, run_identifierText hx hname.kind, Cursor.spanTo]
  exact run_statement_pattern htypes hconst hpattern htypes hassign.kind hvalue hfilled hend

end Grammar

end LiveNotes.Script
