import LiveNotes.Proofs.Bundle.ChunkLine
import LiveNotes.Proofs.Script.Patterns

/-! The expressions that stand for a module where its names are bound: an entry of the registry of the page, a module of
the same chunk, or the variable of an external one. -/

namespace LiveNotes.Bundle

open Script Text Grammar Transpile

/-- The context of the statements of a module. -/
abbrev moduleContext : Context := SourceKind.plainModule.context true

/-- In front of a semicolon, the text is read as the value of a constant. -/
structure IsValue (text : String) (tokens : List TokenKind) (value : Tree) : Prop where
  head : text.toList.head? ≠ some '#'
  opens : .finish ∉ tokens
  lexes : ∀ (gap : Gap) (rest : List Char),
    Lexes (gap.text ++ (text.toList ++ ';' :: rest)) (tokens ++ [.punct .semicolon]) rest
  assigned : ∀ {c : Cursor} {n : Nat}, c.dialect.types = false → text.toList.length ≤ c.size → text.toList.length ≤ n →
    c.Shows (tokens ++ [.punct .semicolon]) →
      ∃ v, assignment (readers n) moduleContext c = some (v, Cursor.next^[tokens.length] c) ∧ v.bare = value
  filled : value.isHole = false
  unquoted : ∀ s surrogates, value.label ≠ .string s surrogates
  faultless : value.anyLabel (· == .coverDefault) = false

/-- It is also read as a statement of its own. -/
structure IsExpression (text : String) (tokens : List TokenKind) (value : Tree) : Prop extends
    IsValue text tokens value where
  alone : ∀ {c : Cursor} {n : Nat}, c.dialect.types = false → text.toList.length ≤ c.size → text.toList.length ≤ n →
    c.Shows (tokens ++ [.punct .semicolon]) →
      ∃ span v, statement (readers (n + 1)) moduleContext false c =
        some (.node .expressionStatement span [v], Cursor.next^[tokens.length + 1] c) ∧ v.bare = value

theorem IsValue.isExpression {text w : String} {more : List TokenKind} {value : Tree}
    (h : IsValue text (.word w false :: more) value) (hw : IsLocal w) (hasync : w ≠ "async") (husing : w ≠ "using") :
    IsExpression text (.word w false :: more) value where
  toIsValue := h
  alone htypes hsize hdepth hshows := by
    obtain ⟨v, hvalue, hv⟩ := h.assigned htypes hsize hdepth hshows
    obtain ⟨-, hend, -⟩ := (Cursor.shows_append _).1 hshows
    have hrun := run_statement_expression hw hasync husing htypes hshows.1 hvalue hend.kind
    rw [← Function.iterate_succ_apply' Cursor.next] at hrun
    exact ⟨_, v, hrun, hv⟩

theorem lexes_end (rest : List Char) : Lexes (';' :: rest) [.punct .semicolon] rest :=
  .token .none (startsWith_punct (by decide) (by decide) rfl) (.done _)

/-- A part of a tree, without its place. -/
abbrev leaf (label : Label) : Tree := .node label ⟨0, 0⟩ []

/-! ### Entries of the registry -/

theorem startsWith_dot {w : String} (hw : isIdentifierName w = true) (rest : List Char) :
    StartsWith ('.' :: (w.toList ++ rest)) (.punct .dot) (w.toList ++ rest) := by
  obtain ⟨c, word, hword, hstart⟩ := exists_cons_of_isIdentifierName hw
  rw [hword, List.cons_append]
  have hdigit : isDecimalDigit c = false := by
    by_contra hdigit
    rw [not_isIdentifierStart ((Bool.not_eq_false _).mp hdigit)] at hstart
    contradiction
  have hdot : c ≠ '.' := by
    rintro rfl
    exact absurd hstart (by decide)
  have hpunct : punct? ('.' :: c :: (word ++ rest)) = some (.dot, 1) := by
    rw [punct?]
    rintro rest heq
    exact hdot (List.cons.inj heq).1
  refine ⟨fun d hd => ?_, Nat.le_succ _, fun fuel pos _ => ⟨pos + 1, ?_⟩⟩
  · rw [List.head?_cons, Option.mem_def, Option.some.injEq] at hd
    exact hd ▸ by decide
  · have hplain : isDecimalDigit '.' = false ∧ isIdentifierStart '.' = false := by decide
    simp [readKind, hplain, hdigit, hpunct]

/-- The tokens of names with a dot in front of each. -/
def memberTokens (ws : List String) : List TokenKind := ws.flatMap fun w => [.punct .dot, .word w false]

theorem lexes_members {ws : List String} (hws : ∀ w ∈ ws, isIdentifierName w = true) {rest : List Char}
    (hrest : EndsWord rest) :
    EndsWord (ws.flatMap (fun w => '.' :: w.toList) ++ rest) ∧
      Lexes (ws.flatMap (fun w => '.' :: w.toList) ++ rest) (memberTokens ws) rest := by
  induction ws with
  | nil => exact ⟨hrest, .done _⟩
  | cons w ws ih =>
    obtain ⟨hw, hws⟩ := List.forall_mem_cons.1 hws
    obtain ⟨hends, hmore⟩ := ih hws
    have hall := Lexes.token .none (startsWith_dot hw _) (Lexes.word .none hw hends hmore)
    refine ⟨endsWord_cons (by decide) _, ?_⟩
    simpa [memberTokens, Gap.text] using hall

/-- The members of the first value, one inside of the other. -/
def memberValue (t : Tree) (ws : List String) : Tree :=
  ws.foldl (fun t w => .node (.member w false) ⟨0, 0⟩ [t]) t

/-- Names behind dots are read one after the other. -/
theorem repeated_access_members (rec : Readers) (ctx : Context) {ws : List String} {c : Cursor} {t : Tree} (start : Nat)
    (ht : t.label ≠ .typed .arguments) (hshows : c.Shows (memberTokens ws)) :
    ∃ v, Parse.repeated (access rec ctx true start) ws.length { tree := t } c =
        some ({ tree := v }, Cursor.next^[(memberTokens ws).length] c) ∧
      v.bare = memberValue t.bare ws := by
  induction ws generalizing c t with
  | nil => exact ⟨t, rfl, rfl⟩
  | cons w ws ih =>
    obtain ⟨hdot, hname, hmore⟩ := hshows
    have hlabel : (t.label == .typed .arguments) = false := beq_eq_false_iff_ne.2 ht
    have hstep : access rec ctx true start { tree := t } c =
        some (some { tree := .node (.member w false) ⟨start, c.next.next.lastStop⟩ [t] }, c.next.next) := by
      simp [access, hdot.kind, namedAccess, hlabel, hname.kind]
    obtain ⟨v, hrun, hv⟩ := ih (c := c.next.next) (t := .node (.member w false) ⟨start, c.next.next.lastStop⟩ [t])
      Label.noConfusion hmore
    refine ⟨v, ?_, hv⟩
    rw [List.length_cons, Parse.repeated_succ hstep, hrun]
    rfl

/-- The entry for `source` of the registry that names with dots between them stand for. -/
def registryValue (w : String) (ws : List String) (source : String) : Tree :=
  .node (.index false) ⟨0, 0⟩ [memberValue (leaf (.read w)) ws, leaf (.string source false)]

theorem run_assignment_registry {w source : String} {ws : List String} {c : Cursor} {n : Nat} (hw : IsLocal w)
    (hasync : w ≠ "async") (htypes : c.dialect.types = false) (hsize : ws.length + 1 ≤ c.size)
    (hshows : c.Shows (.word w false :: (memberTokens ws ++
      [.punct .leftBracket, .string source false, .punct .rightBracket, .punct .semicolon]))) :
    ∃ v, assignment (readers (n + 1)) moduleContext c = some (v, Cursor.next^[(memberTokens ws).length + 4] c) ∧
      v.bare = registryValue w ws source := by
  obtain ⟨hc, hmore⟩ := hshows
  have harrow : c.next.token.kind ≠ .punct .arrow := by
    cases ws with
    | nil => simp [hmore.1.kind]
    | cons v ws => simp [hmore.1.kind]
  obtain ⟨hmembers, hopen, hkey, hclose, hend, -⟩ := (Cursor.shows_append _).1 hmore
  obtain ⟨v, hsteps, hv⟩ := repeated_access_members (readers (n + 1)) moduleContext
    (t := .node (.read w) (c.spanTo 1) []) c.token.span.start Label.noConfusion hmembers
  have htypes' : (Cursor.next^[(memberTokens ws).length] c.next).dialect.types = false := by
    rwa [(Cursor.agrees_iterate _ c.next).dialect]
  have haccess := run_access_string moduleContext c.token.span.start v rfl rfl htypes' n ⟨hopen, hkey, hclose, trivial⟩
  have hall := (Parse.repeated_add hsteps 1).trans (Parse.repeated_succ haccess 0)
  have hprimary : primary (readers (n + 1)) moduleContext c = some (.node (.read w) (c.spanTo 1) [], c.next) :=
    run_primary_word hw hasync hc.kind
  have haccesses := run_accesses hprimary hall rfl (.inl hend.kind) hsize
  have hlast : Cursor.next^[(memberTokens ws).length + 4] c =
      Cursor.next^[3] (Cursor.next^[(memberTokens ws).length] c.next) := by
    have hlength : (memberTokens ws).length + 4 = 3 + ((memberTokens ws).length + 1) := by omega
    rw [hlength, Function.iterate_add_apply, Function.iterate_succ_apply Cursor.next (memberTokens ws).length]
  have hrun := run_assignment hc ⟨hw, hasync, rfl⟩ harrow rfl haccesses (.inl hend.kind) htypes'
  refine ⟨_, hrun.trans (by rw [hlast]; rfl), ?_⟩
  rw [Tree.bare, Tree.bareAll, hv]
  rfl

theorem anyLabel_memberValue {t : Tree} (ht : t.anyLabel (· == .coverDefault) = false) (ws : List String) :
    (memberValue t ws).anyLabel (· == .coverDefault) = false := by
  induction ws generalizing t with
  | nil => exact ht
  | cons w ws ih =>
    refine ih (t := .node (.member w false) ⟨0, 0⟩ [t]) ?_
    rw [Tree.anyLabel, Tree.anyLabels, ht]
    rfl

theorem length_le_length_members (ws : List String) : ws.length ≤ (ws.flatMap fun v => '.' :: v.toList).length := by
  induction ws with
  | nil => exact Nat.le_refl _
  | cons w ws ih =>
    rw [List.flatMap_cons, List.length_append, List.length_cons, List.length_cons]
    omega

theorem toList_path (w : String) (ws : List String) :
    (".".intercalate (w :: ws)).toList = w.toList ++ ws.flatMap fun v => '.' :: v.toList := by
  induction ws generalizing w with
  | nil => simp
  | cons v ws ih =>
    have hv := ih v
    simp only [String.toList_intercalate, List.map_cons] at hv ⊢
    rw [List.intercalate_cons_cons, hv]
    simp

theorem isExpression_registry {w : String} {ws : List String} (hw : IsLocal w) (hname : isIdentifierName w = true)
    (hasync : w ≠ "async") (husing : w ≠ "using") (hws : ∀ v ∈ ws, isIdentifierName v = true) (source : String) :
    IsExpression (registryAccess (".".intercalate (w :: ws)) source)
      (.word w false :: (memberTokens ws ++ [.punct .leftBracket, .string source false, .punct .rightBracket]))
      (registryValue w ws source) := by
  have htext : (registryAccess (".".intercalate (w :: ws)) source).toList =
      w.toList ++ (ws.flatMap (fun v => '.' :: v.toList) ++ '[' :: ((quoted source).toList ++ [']'])) := by
    rw [registryAccess, String.toList_append, String.toList_append, String.toList_append, toList_path]
    simp
  obtain ⟨c, word, hword, hstart⟩ := exists_cons_of_isIdentifierName hname
  refine IsValue.isExpression ⟨?_, by simp [memberTokens], fun gap rest => ?_, fun {c n} htypes hsize hdepth hshows => ?_,
    rfl, fun _ _ => Label.noConfusion, ?_⟩ hw hasync husing
  · rw [htext, hword]
    rintro heq
    obtain rfl : c = '#' := by simpa using heq
    exact absurd hstart (by decide)
  · have hkey : Lexes ('[' :: ((quoted source).toList ++ ']' :: ';' :: rest))
        [.punct .leftBracket, .string source false, .punct .rightBracket, .punct .semicolon] rest := by
      have hclose := Lexes.token .none (startsWith_punct (c := ']') (by decide) (by decide) rfl) (lexes_end rest)
      simpa [Gap.text] using Lexes.token .none (startsWith_punct (c := '[') (by decide) (by decide) rfl)
        (Lexes.quoted .none source hclose)
    obtain ⟨hends, hmembers⟩ := lexes_members hws (endsWord_cons (c := '[') (by decide)
      ((quoted source).toList ++ ']' :: ';' :: rest))
    have hall := Lexes.word gap hname hends (hmembers.append hkey)
    rw [htext]
    simpa using hall
  · have hlength : ws.length + 2 ≤ (registryAccess (".".intercalate (w :: ws)) source).toList.length := by
      have hmembers := length_le_length_members ws
      rw [htext, hword]
      simp only [List.length_append, List.length_cons]
      omega
    obtain ⟨n, rfl⟩ := Nat.exists_eq_add_of_le' (Nat.le_trans (Nat.le_add_left 1 _) (Nat.le_trans hlength hdepth))
    rw [List.cons_append, List.append_assoc] at hshows
    obtain ⟨v, hrun, hv⟩ := run_assignment_registry (n := n) hw hasync htypes
      (Nat.le_trans (Nat.le_succ _) (Nat.le_trans hlength hsize)) hshows
    refine ⟨v, ?_, hv⟩
    rw [hrun, List.length_cons, List.length_append]
    rfl
  · rw [registryValue, Tree.anyLabel, Tree.anyLabels, anyLabel_memberValue rfl]
    rfl

/-! ### Modules of the chunk and external ones -/

def requireValue (index : Nat) : Tree :=
  .node (.call false false) ⟨0, 0⟩ [leaf (.read "__require"), leaf (.number (toString index))]

theorem isExpression_require (index : Nat) : IsExpression (requireText index)
    [.word "__require" false, .punct .leftParen, .number (toString index), .punct .rightParen] (requireValue index) := by
  refine IsValue.isExpression ⟨?_, by simp, fun gap rest => ?_, fun {c n} htypes hsize hdepth hshows => ?_, rfl,
    fun _ _ => Label.noConfusion, rfl⟩ (isLocal_of_underscore rfl) (by decide) (by decide)
  · simp [requireText]
  · have hindex : EndsNumber (')' :: ';' :: rest) := by
      intro c hc
      cases hc
      decide
    have harguments := Lexes.token .none (startsWith_number index hindex)
      (Lexes.token .none (startsWith_punct (c := ')') (by decide) (by decide) rfl) (lexes_end rest))
    have hall := Lexes.word gap (w := "__require") (by decide) (endsWord_cons (by decide) _)
      (Lexes.token .none (startsWith_punct (c := '(') (by decide) (by decide) rfl) harguments)
    simpa [requireText, Gap.text] using hall
  · have hlength : 1 ≤ (requireText index).toList.length := by simp [requireText]
    obtain ⟨n, rfl⟩ := Nat.exists_eq_add_of_le' (Nat.le_trans hlength hdepth)
    exact ⟨_, run_assignment_call moduleContext (isLocal_of_underscore rfl) (by decide) rfl htypes
      (Nat.le_trans hlength hsize) n hshows, rfl⟩

def externalValue (number : Nat) : Tree := leaf (.read (externalName number))

theorem isExpression_external (number : Nat) :
    IsExpression (externalName number) [.word (externalName number) false] (externalValue number) := by
  have hlocal : IsLocal (externalName number) := ChunkLine.isLocal_append rfl
  have hhead : (externalName number).toList.head? = some '_' := by simp [externalName]
  have hne : ∀ w : String, w.toList.head? ≠ some '_' → externalName number ≠ w := by
    rintro w hw rfl
    exact hw hhead
  refine IsValue.isExpression ⟨?_, by simp, fun gap rest => ?_, fun {c n} htypes hsize hdepth hshows => ?_, rfl,
    fun _ _ => Label.noConfusion, rfl⟩ hlocal (hne _ (by decide)) (hne _ (by decide))
  · simp [hhead]
  · exact Lexes.word gap (isIdentifierName_append_toString (by decide) number) (endsWord_cons (by decide) _) (lexes_end rest)
  · obtain ⟨hc, hend, -⟩ := hshows
    have hprimary : primary (readers n) moduleContext c =
        some (.node (.read (externalName number)) (c.spanTo 1) [], c.next) :=
      run_primary_word hlocal (hne _ (by decide)) hc.kind
    have haccesses := run_accesses_alone hprimary (.inl hend.kind)
    have harrow : c.next.token.kind ≠ .punct .arrow := by simp [hend.kind]
    exact ⟨_, run_assignment hc ⟨hlocal, hne _ (by decide), rfl⟩ harrow rfl haccesses (.inl hend.kind) htypes, rfl⟩

/-- The expression that stands for what `specifier` names in the module `importer`. -/
def ModuleGraph.targetValue (g : ModuleGraph) (importer specifier : String) (externals : List String) : Tree :=
  match g.resolve? importer specifier with
  | some index => requireValue index
  | none => externalValue (numberOf externals specifier).1

theorem isExpression_target (g : ModuleGraph) (importer specifier : String) (externals : List String) :
    ∃ tokens, IsExpression (g.target importer specifier externals).1 tokens
      (g.targetValue importer specifier externals) := by
  unfold ModuleGraph.target ModuleGraph.targetValue
  cases g.resolve? importer specifier with
  | some index => exact ⟨_, isExpression_require index⟩
  | none => exact ⟨_, isExpression_external _⟩

end LiveNotes.Bundle
