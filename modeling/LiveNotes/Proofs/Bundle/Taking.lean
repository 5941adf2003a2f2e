import LiveNotes.Proofs.Bundle.Target

/-! What an import takes from a module: by way of the registry of the page, and by way of a chunk. -/

namespace LiveNotes.Script.Grammar

open Text Transpile

variable {α : Type}

/-- Texts that are taken apart one by one are taken apart as a list. -/
theorem lexes_commaList {text : α → String} {tokens : α → List TokenKind} {as : List α} (has : as ≠ [])
    (hone : ∀ a ∈ as, ∀ rest, EndsWord rest → Lexes (' ' :: ((text a).toList ++ rest)) (tokens a) rest)
    {rest : List Char} (hrest : EndsWord rest) :
    Lexes (' ' :: ((", ".intercalate (as.map text)).toList ++ rest)) (commaTokens tokens as) rest := by
  induction as with
  | nil => contradiction
  | cons a more ih =>
    obtain ⟨ha, hmore⟩ := List.forall_mem_cons.1 hone
    cases more with
    | nil => simpa [String.toList_intercalate, commaTokens] using ha rest hrest
    | cons b more =>
      have hlist := ih (List.cons_ne_nil b more) hmore
      have hcomma := Lexes.token .none (startsWith_punct (c := ',') (by decide) (by decide) rfl) hlist
      have hall := (ha _ (endsWord_cons (by decide) _)).append hcomma
      simpa [String.toList_intercalate, List.intercalate_cons_cons, Gap.text, commaTokens] using hall

theorem lexes_property {p : String × String} (hp : IsVariable p.2) {rest : List Char} (hrest : EndsWord rest) :
    Lexes (' ' :: ((destructureProperty p.1 p.2).toList ++ rest)) (propertyTokens p) rest := by
  have hvalue := Lexes.token .none (startsWith_punct (c := ':') (by decide) (by decide) rfl)
    (Lexes.word .space hp.name hrest (.done rest))
  unfold destructureProperty propertyTokens
  split
  · simpa [Gap.text] using Lexes.quoted .space p.1 hvalue
  · next hname =>
    split
    · exact Lexes.word .space hp.name hrest (.done rest)
    · have hkey : isIdentifierName p.1 = true := by simpa using hname
      simpa [Gap.text] using Lexes.word .space hkey (endsWord_cons (by decide) _) hvalue

namespace Binder

def text : Binder → String
  | whole x => x
  | properties ps => "\x7b " ++ ", ".intercalate (ps.map fun p => destructureProperty p.1 p.2) ++ " \x7d"

theorem lexes {b : Binder} (hb : b.IsWritten) {rest : List Char} (hrest : EndsWord rest) :
    Lexes (' ' :: (b.text.toList ++ rest)) b.tokens rest := by
  cases b with
  | whole x => exact Lexes.word .space (IsVariable.name hb) hrest (.done rest)
  | properties ps =>
    obtain ⟨hps, hvariable⟩ := hb
    have hclose := Lexes.token .space (startsWith_punct (c := '}') (by decide) (by decide) rfl) (.done rest)
    have hlist := lexes_commaList hps (fun p hp _ => lexes_property (hvariable p hp))
      (endsWord_cons (c := ' ') (by decide) ('}' :: rest))
    have hall := Lexes.token .space (startsWith_punct (c := '{') (by decide) (by decide) rfl) (hlist.append hclose)
    simpa [text, tokens, Gap.text] using hall

end Binder

end LiveNotes.Script.Grammar

namespace LiveNotes.Bundle

open Script Text Grammar Transpile

variable {target : String} {tokens : List TokenKind} {value : Tree} {b : Binder} {bs : List Binder} {c : Cursor}
  {α : Type}

/-! ### Statements that take from one value -/

def bindingText (target : String) (b : Binder) : String := "const " ++ b.text ++ " = " ++ target ++ ";"

def bindingTokens (tokens : List TokenKind) (b : Binder) : List TokenKind :=
  .word "const" false :: (b.tokens ++ .punct .assign :: (tokens ++ [.punct .semicolon]))

/-- The value alone if nothing is taken from it, and otherwise a statement for each pattern. -/
def bindersText (target : String) (bs : List Binder) : String :=
  if bs.isEmpty then target ++ ";" else " ".intercalate (bs.map (bindingText target))

theorem lexes_binding (h : IsValue target tokens value) (hb : b.IsWritten) (gap : Gap) (rest : List Char) :
    Lexes (gap.text ++ ((bindingText target b).toList ++ rest)) (bindingTokens tokens b) rest := by
  have hassign := Lexes.token .space (startsWith_punct (c := '=') (by decide) (by decide) rfl) (h.lexes .space rest)
  have hpattern := (Binder.lexes hb (endsWord_cons (c := ' ') (by decide) _)).append hassign
  have hall := Lexes.word gap (w := "const") (by decide) (endsWord_cons (by decide) _) hpattern
  simpa [bindingText, bindingTokens, Gap.text] using hall

theorem lexes_bindings (h : IsValue target tokens value) (hbs : ∀ b ∈ bs, b.IsWritten) (hne : bs ≠ []) (gap : Gap)
    (rest : List Char) :
    Lexes (gap.text ++ ((" ".intercalate (bs.map (bindingText target))).toList ++ rest))
      (bs.flatMap (bindingTokens tokens)) rest := by
  induction bs generalizing gap with
  | nil => contradiction
  | cons b more ih =>
    obtain ⟨hb, hmore⟩ := List.forall_mem_cons.1 hbs
    cases more with
    | nil => simpa [String.toList_intercalate] using lexes_binding h hb gap rest
    | cons b' more =>
      have hrest := ih hmore (List.cons_ne_nil b' more) .space
      have hall := (lexes_binding h hb gap _).append hrest
      simpa [String.toList_intercalate, List.intercalate_cons_cons, Gap.text] using hall

/-- The statement takes from the value what is written in front of it. -/
structure TakesFrom (value : Tree) (b : Binder) (t : Tree) : Prop where
  label : t.label = .variableList .const
  taken : statementTaken? value t = some b.taken
  faultless : t.anyLabel (· == .coverDefault) = false

theorem run_statement_binding (h : IsValue target tokens value) (hb : b.IsWritten) (htypes : c.dialect.types = false)
    (hwidth : b.width ≤ c.size) (hsize : target.toList.length ≤ c.size) {n : Nat} (hdepth : target.toList.length ≤ n)
    {rest : List TokenKind} (hshows : c.Shows (bindingTokens tokens b ++ rest)) :
    ∃ t, statement (readers (n + 2)) moduleContext false c =
        some (t, Cursor.next^[(bindingTokens tokens b).length] c) ∧ TakesFrom value b t := by
  obtain ⟨hline, -⟩ := (Cursor.shows_append _).1 hshows
  obtain ⟨hconst, hpattern⟩ := hline
  obtain ⟨-, hassign, hvalue⟩ := (Cursor.shows_append _).1 hpattern
  obtain ⟨-, hend, -⟩ := (Cursor.shows_append _).1 hvalue
  obtain ⟨p, hp, hptaken⟩ : ∃ p, pattern (readers (n + 1)) moduleContext c.next =
      some (p, Cursor.next^[b.tokens.length] c.next) ∧ TakesAll b p := run_pattern hb rfl hwidth hpattern
  have hagrees := Cursor.agrees_iterate b.tokens.length c.next
  have htypes' : (Cursor.next^[b.tokens.length] c.next).dialect.types = false := by rwa [hagrees.dialect]
  obtain ⟨v, hv, rfl⟩ := h.assigned (c := (Cursor.next^[b.tokens.length] c.next).next) (n := n + 1) htypes'
    (by rwa [Cursor.next_size, hagrees.size]) (Nat.le_succ_of_le hdepth) hvalue
  have hfilled : v.isHole = false := by
    rw [Tree.isHole, ← Tree.label_bare]
    exact h.filled
  have hrun := run_statement_pattern htypes hconst hp htypes' hassign.kind hv hfilled hend.kind
  have hlast : Cursor.next^[(bindingTokens tokens b).length] c =
      (Cursor.next^[tokens.length] (Cursor.next^[b.tokens.length] c.next).next).next := by
    have hlength : (bindingTokens tokens b).length = (tokens.length + 1) + 1 + b.tokens.length + 1 := by
      simp only [bindingTokens, List.length_cons, List.length_append, List.length_nil]
      omega
    rw [hlength, Function.iterate_succ_apply, Function.iterate_add_apply, Function.iterate_succ_apply,
      Function.iterate_succ_apply']
  refine ⟨_, hrun.trans (by rw [hlast]), rfl, ?_, ?_⟩
  · simp [statementTaken?, hptaken.taken]
  · have hvalue := h.faultless
    rw [Tree.anyLabel_bare] at hvalue
    simp [Tree.anyLabel, Tree.anyLabels, hptaken.faultless, hvalue]

/-- The statements on one line are read as what they were written for. -/
theorem bodyItems_bindings (h : IsValue target tokens value) (hbs : ∀ b ∈ bs, b.IsWritten)
    (hwidth : ∀ b ∈ bs, b.width ≤ c.size) (htypes : c.dialect.types = false) (hsize : target.toList.length ≤ c.size)
    {n : Nat} (hdepth : target.toList.length ≤ n) {more : List TokenKind}
    (hshows : c.Shows (bs.flatMap (bindingTokens tokens) ++ more)) (isFirst : Bool) :
    ∃ ts last, bodyItems (readers (n + 3)) moduleContext (· == .finish) bs.length isFirst c =
        some ((ts, last), Cursor.next^[(bs.flatMap (bindingTokens tokens)).length] c) ∧
      List.Forall₂ (TakesFrom value) bs ts := by
  refine bodyItems_of_shows (fun b hb c' hagrees hshown => ?_) hshows isFirst
  have hopen : (c'.token.kind == .finish) = false := by
    rw [hshown.1.kind]
    rfl
  have hline : c'.Shows (bindingTokens tokens b ++ []) := by rwa [List.append_nil]
  obtain ⟨t, hstatement, ht⟩ := run_statement_binding h (hbs b hb) (by rwa [hagrees.dialect])
    (by simpa [hagrees.size] using hwidth b hb) (by rwa [hagrees.size]) hdepth hline
  exact ⟨hopen, t, hstatement, by simp [ht.label], ht⟩

theorem head?_bindersText (h : IsValue target tokens value) (bs : List Binder) :
    (bindersText target bs).toList.head? ≠ some '#' := by
  cases bs with
  | nil =>
    have hhead := h.head
    cases htarget : target.toList with
    | nil => simp [bindersText, htarget]
    | cons d rest =>
      rw [htarget] at hhead
      simpa [bindersText, htarget] using hhead
  | cons b bs =>
    cases bs with
    | nil => simp [bindersText, bindingText]
    | cons b' bs => simp [bindersText, bindingText]

/-! ### How much is read -/

theorem length_le_length_intercalate (sep : List α) {ls : List (List α)} (h : ∀ l ∈ ls, 1 ≤ l.length) :
    ls.length ≤ (sep.intercalate ls).length := by
  induction ls with
  | nil => exact Nat.zero_le _
  | cons l ls ih =>
    obtain ⟨hl, hls⟩ := List.forall_mem_cons.1 h
    have hrest := ih hls
    cases ls with
    | nil => simpa using hl
    | cons l' ls =>
      rw [List.intercalate_cons_cons, List.length_append, List.length_append, List.length_cons]
      omega

theorem length_le_of_mem_intercalate (sep : List α) {l : List α} {ls : List (List α)} (h : l ∈ ls) :
    l.length ≤ (sep.intercalate ls).length := by
  induction ls with
  | nil => contradiction
  | cons first ls ih =>
    cases ls with
    | nil =>
      obtain rfl := List.mem_singleton.1 h
      simp
    | cons second ls =>
      rw [List.intercalate_cons_cons, List.length_append, List.length_append]
      rcases List.mem_cons.1 h with rfl | hmore
      · omega
      · have hrest := ih hmore
        omega

/-- Texts with something in each of them are no more than the characters of the list that they make. -/
theorem length_le_length_texts {text : α → String} {as : List α} (sep : String)
    (h : ∀ a ∈ as, 1 ≤ (text a).toList.length) : as.length ≤ (sep.intercalate (as.map text)).toList.length := by
  have hall : ∀ l ∈ as.map (String.toList ∘ text), 1 ≤ l.length := List.forall_mem_map.2 h
  have hle := length_le_length_intercalate sep.toList hall
  rwa [List.length_map, ← List.map_map, ← String.toList_intercalate] at hle

theorem length_le_of_mem_texts {text : α → String} {as : List α} (sep : String) {a : α} (ha : a ∈ as) :
    (text a).toList.length ≤ (sep.intercalate (as.map text)).toList.length := by
  rw [String.toList_intercalate, List.map_map]
  exact length_le_of_mem_intercalate sep.toList (List.mem_map.2 ⟨a, ha, rfl⟩)

theorem length_destructureProperty_pos {p : String × String} (hp : IsVariable p.2) :
    1 ≤ (destructureProperty p.1 p.2).toList.length := by
  obtain ⟨c, word, hword, -⟩ := exists_cons_of_isIdentifierName hp.name
  have hname : 1 ≤ p.2.toList.length := by simp [hword]
  unfold destructureProperty
  split
  · rw [String.toList_append, List.length_append]
    omega
  · split
    · exact hname
    · rw [String.toList_append, List.length_append]
      omega

theorem Binder.width_le {b : Binder} (hb : b.IsWritten) : b.width ≤ b.text.toList.length := by
  cases b with
  | whole x =>
    obtain ⟨c, word, hword, -⟩ := exists_cons_of_isIdentifierName (IsVariable.name hb)
    simp [Binder.width, Binder.text, hword]
  | properties ps =>
    have hle : ps.length ≤ (", ".intercalate (ps.map fun p => destructureProperty p.1 p.2)).toList.length :=
      length_le_length_texts ", " fun p hp => length_destructureProperty_pos (hb.2 p hp)
    simp only [Binder.width, Binder.text, String.toList_append, List.length_append]
    omega

/-- Neither the statements nor what is written in them are more than the characters of the text. -/
theorem size_bindersText (target : String) (hbs : ∀ b ∈ bs, b.IsWritten) (hne : bs ≠ []) :
    bs.length ≤ (bindersText target bs).toList.length ∧ target.toList.length ≤ (bindersText target bs).toList.length ∧
      ∀ b ∈ bs, b.width ≤ (bindersText target bs).toList.length := by
  have htext : bindersText target bs = " ".intercalate (bs.map (bindingText target)) := by
    rw [bindersText, if_neg (by simpa using hne)]
  have hone : ∀ b, b.text.toList.length + target.toList.length + 1 ≤ (bindingText target b).toList.length := by
    intro b
    simp only [bindingText, String.toList_append, List.length_append]
    have hword : "const ".toList.length = 6 := rfl
    omega
  have hmem : ∀ b ∈ bs, b.text.toList.length + target.toList.length + 1 ≤ (bindersText target bs).toList.length :=
    fun b hb => by
      rw [htext]
      exact Nat.le_trans (hone b) (length_le_of_mem_texts " " hb)
  refine ⟨?_, ?_, fun b hb => ?_⟩
  · rw [htext]
    exact length_le_length_texts " " fun b _ => Nat.le_trans (Nat.le_add_left 1 _) (hone b)
  · obtain ⟨b, hb⟩ := List.exists_mem_of_ne_nil bs hne
    have hle := hmem b hb
    omega
  · have hwidth := Binder.width_le (hbs b hb)
    have hle := hmem b hb
    omega

/-! ### What is taken -/

/-- The tokens of a module that ends behind them. -/
theorem shows_startCursor {text : List Char} {shown : List TokenKind} (h : Lexes text shown []) :
    (startCursor .plainModule text).Shows (shown ++ [.finish]) :=
  Cursor.shows_atPlace (h.append (.token .none startsWith_finish (.done []))) _ rfl rfl rfl (Nat.le_succ _)

theorem IsValue.opens_eq_false (h : IsValue target tokens value) (hshows : c.Shows (tokens ++ [.punct .semicolon])) :
    (c.token.kind == .finish) = false := by
  cases tokens with
  | nil =>
    rw [hshows.1.kind]
    rfl
  | cons k more =>
    rw [hshows.1.kind, beq_eq_false_iff_ne]
    rintro rfl
    exact h.opens List.mem_cons_self

/-- A value alone takes nothing. -/
theorem taken?_alone (h : IsExpression target tokens value) : taken? value (target ++ ";") = some [] := by
  have htext : (target ++ ";").toList = target.toList ++ [';'] := by simp
  have hlexes : Lexes (target ++ ";").toList (tokens ++ [.punct .semicolon]) [] := by
    rw [htext]
    exact h.lexes .none []
  obtain ⟨hshown, hfinish, -⟩ := (Cursor.shows_append _).1 (shows_startCursor hlexes)
  rw [List.length_append, List.length_singleton] at hfinish
  have hlength : target.toList.length ≤ (target ++ ";").toList.length := by simp [htext]
  obtain ⟨span, v, hrun, hv⟩ := h.alone (n := 4 * (target ++ ";").toList.length + 14) rfl (Nat.le_succ_of_le hlength)
    (by omega) hshown
  have hdirective : ∀ text, directive? text (.node .expressionStatement span [v]) = none := by
    intro text
    unfold directive?
    split
    · next heq =>
      obtain ⟨-, -, rfl⟩ := by simpa using heq
      exact absurd rfl (hv ▸ h.unquoted _ _)
    · rfl
  have hitems : bodyItems (readers (4 * (target ++ ";").toList.length + 16)) moduleContext (· == .finish) 1 true
      (startCursor .plainModule (target ++ ";").toList) = some (([.node .expressionStatement span [v]], false), _) :=
    bodyItems_succ_of_directive (h.opens_eq_false hshown) hrun hdirective 0 true
  have hfaultless : Tree.anyLabels (· == .coverDefault) [.node .expressionStatement span [v]] = false := by
    have hvalue := h.faultless
    rw [← hv, Tree.anyLabel_bare] at hvalue
    simp [Tree.anyLabel, Tree.anyLabels, hvalue]
  obtain ⟨script, hparse, hkids⟩ : ∃ script, parse .plainModule (target ++ ";") = some script ∧
      script.tree.kids = [.node .expressionStatement span [v]] :=
    parse_of_bodyItems (hashbangLine_eq_none (head?_bindersText h.toIsValue [])) hitems hfinish.kind (by omega)
      (Cursor.agrees_iterate _ _).flawed hfaultless rfl
  simp [taken?, hparse, hkids, statementTaken?, hv]

/-- What is written for some patterns takes what they say. -/
theorem taken?_bindersText (h : IsExpression target tokens value) (hbs : ∀ b ∈ bs, b.IsWritten) :
    taken? value (bindersText target bs) = some (bs.flatMap Binder.taken) := by
  by_cases hne : bs = []
  · subst hne
    exact taken?_alone h
  obtain ⟨hcount, hlength, hwidth⟩ := size_bindersText target hbs hne
  have hlexes : Lexes (bindersText target bs).toList (bs.flatMap (bindingTokens tokens)) [] := by
    have hall := lexes_bindings h.toIsValue hbs hne .none []
    rw [bindersText, if_neg (by simpa using hne)]
    simpa [Gap.text] using hall
  have hshows := shows_startCursor hlexes
  obtain ⟨ts, last, hitems, hts⟩ := bodyItems_bindings (n := 4 * (bindersText target bs).toList.length + 13) h.toIsValue hbs
    (fun b hb => Nat.le_succ_of_le (hwidth b hb)) rfl (Nat.le_succ_of_le hlength) (by omega) hshows true
  obtain ⟨-, hfinish, -⟩ := (Cursor.shows_append _).1 hshows
  have hparts : ∀ t ∈ ts, t.anyLabel (· == .coverDefault) = false ∧ exportedNames t = [] := by
    refine ((List.forall₂_and_left ts bs).1 (hts.flip.imp fun t _ h => ⟨⟨h.faultless, ?_⟩, h⟩)).1
    obtain ⟨label, span, ks⟩ := t
    obtain rfl : label = .variableList .const := h.label
    rfl
  have hnames : ts.flatMap exportedNames = [] := List.flatMap_eq_nil_iff.2 fun t ht => (hparts t ht).2
  obtain ⟨script, hparse, hkids⟩ := parse_of_bodyItems (hashbangLine_eq_none (head?_bindersText h.toIsValue bs)) hitems
    hfinish.kind (Nat.le_succ_of_le hcount) (Cursor.agrees_iterate _ _).flawed
    (Tree.anyLabels_eq_false fun t ht => (hparts t ht).1) (by rw [hnames]; rfl)
  have htaken : ts.mapM (statementTaken? value) = some (bs.map Binder.taken) := by
    refine mapM_of_forall₂ ?_
    rw [List.forall₂_map_left_iff]
    exact hts.imp fun _ _ h => h.taken
  rw [taken?, hparse, Option.bind_some, hkids, htaken, Option.map_some, List.flatMap_def]

end LiveNotes.Bundle
