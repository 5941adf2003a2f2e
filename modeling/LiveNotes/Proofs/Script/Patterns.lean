import LiveNotes.Proofs.Script.Part
import LiveNotes.Proofs.Script.Program
import LiveNotes.Proofs.Script.Statements
import Mathlib.Data.List.Forall2

/-! Constants bound to a value or to its properties: what the statements take from the value, and how they are read. -/

namespace LiveNotes.Script

/-- A name, and what it stands for: one property of a value, or all of it. -/
structure Taken where
  name : String
  property : Option String
  deriving DecidableEq, Repr

namespace Tree

mutual

/-- The tree without the places of its parts. -/
def bare : Tree → Tree
  | node label _ ks => node label ⟨0, 0⟩ (bareAll ks)

def bareAll : List Tree → List Tree
  | [] => []
  | t :: ts => bare t :: bareAll ts

end

mutual

theorem anyLabel_bare (p : Label → Bool) : ∀ t : Tree, t.bare.anyLabel p = t.anyLabel p
  | node label span ks => by rw [bare, anyLabel, anyLabel, anyLabels_bareAll p ks]

theorem anyLabels_bareAll (p : Label → Bool) : ∀ ts : List Tree, anyLabels p (bareAll ts) = anyLabels p ts
  | [] => rfl
  | t :: ts => by rw [bareAll, anyLabels, anyLabels, anyLabel_bare p t, anyLabels_bareAll p ts]

end

theorem label_bare (t : Tree) : t.bare.label = t.label := by
  obtain ⟨label, span, ks⟩ := t
  rfl

end Tree

/-- The name of the property that a key stands for. -/
def keyName? : Label → Option String
  | .name w => some w
  | .string w false => some w
  | _ => none

def propertyTaken? : Tree → Option Taken
  | .node (.bindingProperty false _) _ [key, .node (.binding x) _ []] => (keyName? key.label).map fun w => ⟨x, some w⟩
  | _ => none

/-- What a pattern takes, without defaults and patterns inside of it. -/
def patternTaken? : Tree → Option (List Taken)
  | .node (.binding x) _ [] => some [⟨x, none⟩]
  | .node .objectPattern _ ps => ps.mapM propertyTaken?
  | _ => none

/-- What a statement takes from `value`, if that is the expression in it. -/
def statementTaken? (value : Tree) : Tree → Option (List Taken)
  | .node (.variableList .const) _ [.node .declarator _ [p, v]] => if v.bare = value then patternTaken? p else none
  | .node .expressionStatement _ [v] => if v.bare = value then some [] else none
  | _ => none

/-- What the statements of a module take from `value`. -/
def taken? (value : Tree) (code : String) : Option (List Taken) :=
  (parse .plainModule code).bind fun script => (script.tree.kids.mapM (statementTaken? value)).map List.flatten

theorem mapM_of_forall₂ {α β : Type} {f : α → Option β} {as : List α} {bs : List β}
    (h : List.Forall₂ (fun b a => f a = some b) bs as) : as.mapM f = some bs := by
  induction h with
  | nil => rfl
  | cons ha _ ih => simp [ha, ih]

/-- A name that a module may give to a variable. -/
structure IsVariable (x : String) : Prop where
  name : isIdentifierName x = true
  unreserved : isReserved x = false
  free : x ≠ "await"

instance (x : String) : Decidable (IsVariable x) :=
  decidable_of_iff (isIdentifierName x = true ∧ isReserved x = false ∧ x ≠ "await")
    ⟨fun ⟨name, unreserved, free⟩ => ⟨name, unreserved, free⟩, fun h => ⟨h.name, h.unreserved, h.free⟩⟩

namespace Grammar

open Parse

variable {α β : Type} {c c' : Cursor} {ctx : Context} {rec : Readers} {x : String} {n : Nat}

/-! ### Lists -/

/-- The tokens of some parts with commas between them. -/
def commaTokens (tokens : α → List TokenKind) : List α → List TokenKind
  | [] => []
  | [a] => tokens a
  | a :: b :: more => tokens a ++ .punct .comma :: commaTokens tokens (b :: more)

theorem shows_first {tokens more : List TokenKind} {k : TokenKind} (h : c.Shows (tokens ++ k :: more)) :
    c.Shows (tokens ++ [k]) := by
  obtain ⟨hfirst, hk, -⟩ := (Cursor.shows_append _).1 h
  exact (Cursor.shows_append _).2 ⟨hfirst, hk, trivial⟩

/-- Parts that are read one by one, in front of a comma and of the closing token, are read as a list. -/
theorem listed_of_shows {close : Punct} {item : Parse β} {tokens : α → List TokenKind} {reads : α → β → Prop}
    {as : List α} {rest : List TokenKind} (hclose : close ≠ .comma) (has : as ≠ [])
    (hitem : ∀ a ∈ as, ∀ k c, k = .comma ∨ k = close → Cursor.Shows c (tokens a ++ [.punct k]) →
      c.token.kind ≠ .punct close ∧ ∃ b, item c = some (b, Cursor.next^[(tokens a).length] c) ∧ reads a b)
    (hshows : c.Shows (commaTokens tokens as ++ .punct close :: rest)) :
    ∃ bs, Listed close item c bs (Cursor.next^[(commaTokens tokens as).length] c) ∧ List.Forall₂ reads as bs := by
  induction as generalizing c with
  | nil => contradiction
  | cons a more ih =>
    obtain ⟨hone, hmore⟩ := List.forall_mem_cons.1 hitem
    cases more with
    | nil =>
      obtain ⟨hopen, b, hrun, hb⟩ := hone close c (.inr rfl) (shows_first hshows)
      have hlast := ((Cursor.shows_append _).1 hshows).2.1.kind
      exact ⟨[b], .last hopen hrun hlast hclose, .cons hb .nil⟩
    | cons a' more =>
      have htokens : commaTokens tokens (a :: a' :: more) =
          tokens a ++ .punct .comma :: commaTokens tokens (a' :: more) := rfl
      rw [htokens, List.append_assoc] at hshows
      obtain ⟨hopen, b, hrun, hb⟩ := hone .comma c (.inl rfl) (shows_first hshows)
      obtain ⟨-, hcomma, hrest⟩ := (Cursor.shows_append _).1 hshows
      obtain ⟨bs, hlisted, hbs⟩ := ih (List.cons_ne_nil _ _) hmore hrest
      refine ⟨b :: bs, ?_, .cons hb hbs⟩
      have hend : Cursor.next^[(commaTokens tokens (a :: a' :: more)).length] c =
          Cursor.next^[(commaTokens tokens (a' :: more)).length] (Cursor.next^[(tokens a).length] c).next := by
        rw [htokens, List.length_append, List.length_cons, Nat.add_comm, Function.iterate_add_apply,
          Function.iterate_succ_apply]
      rw [hend]
      exact .more hopen hrun hcomma.kind hlisted

/-! ### Patterns -/

theorem run_useName_variable (hx : x ≠ "await") (hyields : ctx.yields = false) : useName ctx x c = some ((), c) := by
  have hawait : (x == "await") = false := beq_eq_false_iff_ne.2 hx
  simp [useName, hawait, hyields]

theorem run_bindingName (hx : IsVariable x) (hyields : ctx.yields = false) (hc : c.token.kind = .word x false) :
    bindingName ctx c = some (.node (.binding x) (c.spanTo 1) [], c.next) := by
  have hname : identifierText ctx c = some (x, c.next) := by
    simp [identifierText, hc, hx.unreserved, run_useName_variable hx.free hyields]
  simp [bindingName, hname, Cursor.spanTo]

theorem run_pattern_name (hx : IsVariable x) (hyields : ctx.yields = false) (hc : c.token.kind = .word x false) :
    pattern rec ctx c = some (.node (.binding x) (c.spanTo 1) [], c.next) := by
  simp [pattern, hc, run_bindingName hx hyields hc]

/-- The tokens that bind the second name to the property with the first one. -/
def propertyTokens (p : String × String) : List TokenKind :=
  if !isIdentifierName p.1 then [.string p.1 false, .punct .colon, .word p.2 false]
  else if p.1 == p.2 then [.word p.2 false]
  else [.word p.1 false, .punct .colon, .word p.2 false]

/-- A tree for which no default is written where none may stand, and what it says. -/
structure TakesProperty (p : String × String) (t : Tree) : Prop where
  taken : propertyTaken? t = some ⟨p.2, some p.1⟩
  faultless : t.anyLabel (· == .coverDefault) = false

/-- A key and, behind a colon, the name it is bound to. -/
theorem run_bindingProperty_key {p : String × String} {label : Label} {k : Punct} (hx : IsVariable p.2)
    (hyields : ctx.yields = false) (hk : k = .comma ∨ k = .rightBrace)
    (hkey : propertyKey (readers (n + 1)) ctx c = some ((.node label (c.spanTo 1) [], false), c.next))
    (hlabel : keyName? label = some p.1) (hdots : c.token.kind ≠ .punct .ellipsis)
    (hshows : c.next.Shows [.punct .colon, .word p.2 false, .punct k]) :
    ∃ t, bindingProperty (readers (n + 1)) ctx c = some (t, c.next.next.next) ∧ TakesProperty p t := by
  obtain ⟨hcolon, hname, hend, -⟩ := hshows
  have hvalue : withDefault (readers (n + 1)) ctx (readers (n + 1) (.pattern ctx)) c.next.next =
      some (.node (.binding p.2) (c.next.next.spanTo 1) [], c.next.next.next) := by
    have hpattern : readers (n + 1) (.pattern ctx) c.next.next =
        some (.node (.binding p.2) (c.next.next.spanTo 1) [], c.next.next.next) :=
      run_pattern_name hx hyields hname.kind
    rcases hk with rfl | rfl
    · simp [withDefault, hpattern, hend.kind]
    · simp [withDefault, hpattern, hend.kind]
  have hprivate : ∀ w, label ≠ .privateName w := by
    rintro w rfl
    contradiction
  have hcover : (label == .coverDefault) = false := by
    rw [beq_eq_false_iff_ne]
    rintro rfl
    contradiction
  refine ⟨.node (.bindingProperty false false) ⟨c.token.span.start, c.next.next.next.lastStop⟩
    [.node label (c.spanTo 1) [], .node (.binding p.2) (c.next.next.spanTo 1) []], ?_, ?_, ?_⟩
  · simp [bindingProperty, hdots, atIdentifier, hkey, hcolon.kind, hvalue]
  · simp [propertyTaken?, hlabel]
  · simp [Tree.anyLabel, Tree.anyLabels, hcover]

theorem run_bindingProperty {p : String × String} {k : Punct} (hx : IsVariable p.2) (hyields : ctx.yields = false)
    (hk : k = .comma ∨ k = .rightBrace) (hshows : c.Shows (propertyTokens p ++ [.punct k])) :
    ∃ t, bindingProperty (readers (n + 1)) ctx c = some (t, Cursor.next^[(propertyTokens p).length] c) ∧
      TakesProperty p t := by
  unfold propertyTokens at hshows ⊢
  split at hshows
  · next hname =>
    rw [if_pos hname]
    have hkey : propertyKey (readers (n + 1)) ctx c =
        some ((.node (.string p.1 false) (c.spanTo 1) [], false), c.next) := by
      simp [propertyKey, hshows.1.kind, Cursor.spanTo]
    exact run_bindingProperty_key hx hyields hk hkey rfl (by simp [hshows.1.kind]) hshows.2
  · next hname =>
    rw [if_neg hname]
    split at hshows
    · next hsame =>
      rw [if_pos hsame]
      obtain ⟨hone, hend, -⟩ := hshows
      refine ⟨.node (.bindingProperty false true) (c.spanTo 1)
        [.node (.name p.2) (c.spanTo 1) [], .node (.binding p.2) (c.spanTo 1) []], ?_, ?_, rfl⟩
      · rcases hk with rfl | rfl
        · simp [bindingProperty, atIdentifier, isIdentifier, propertyKey, hone.kind, hx.unreserved, hend.kind,
            bindingShorthand, run_useName_variable hx.free hyields, Cursor.spanTo]
        · simp [bindingProperty, atIdentifier, isIdentifier, propertyKey, hone.kind, hx.unreserved, hend.kind,
            bindingShorthand, run_useName_variable hx.free hyields, Cursor.spanTo]
      · simp [propertyTaken?, keyName?, eq_of_beq hsame]
    · next hother =>
      rw [if_neg hother]
      have hkey : propertyKey (readers (n + 1)) ctx c = some ((.node (.name p.1) (c.spanTo 1) [], false), c.next) := by
        simp [propertyKey, hshows.1.kind, Cursor.spanTo]
      exact run_bindingProperty_key hx hyields hk hkey rfl (by simp [hshows.1.kind]) hshows.2

/-- What stands between the word `const` and a value: a name, or names in braces and the properties they are bound to. -/
inductive Binder where
  | whole (x : String)
  | properties (ps : List (String × String))

namespace Binder

def tokens : Binder → List TokenKind
  | whole x => [.word x false]
  | properties ps => .punct .leftBrace :: (commaTokens propertyTokens ps ++ [.punct .rightBrace])

def taken : Binder → List Taken
  | whole x => [⟨x, none⟩]
  | properties ps => ps.map fun p => ⟨p.2, some p.1⟩

def IsWritten : Binder → Prop
  | whole x => IsVariable x
  | properties ps => ps ≠ [] ∧ ∀ p ∈ ps, IsVariable p.2

/-- How many parts there are, which bounds the steps of the loop over them. -/
def width : Binder → Nat
  | whole _ => 1
  | properties ps => ps.length

end Binder

/-- A pattern for what stands in front of a value. -/
structure TakesAll (b : Binder) (t : Tree) : Prop where
  taken : patternTaken? t = some b.taken
  faultless : t.anyLabel (· == .coverDefault) = false

theorem run_pattern_properties {ps : List (String × String)} {rest : List TokenKind} (hps : ps ≠ [])
    (hvariable : ∀ p ∈ ps, IsVariable p.2) (hyields : ctx.yields = false) (hsize : ps.length ≤ c.size)
    (hshows : c.Shows ((Binder.properties ps).tokens ++ rest)) :
    ∃ t, pattern (readers (n + 1)) ctx c = some (t, Cursor.next^[(Binder.properties ps).tokens.length] c) ∧
      TakesAll (.properties ps) t := by
  obtain ⟨hopen, hlist⟩ : c.IsAt (.punct .leftBrace) ∧
      c.next.Shows (commaTokens propertyTokens ps ++ .punct .rightBrace :: rest) := by
    simpa [Binder.tokens, Cursor.Shows] using hshows
  have hitem : ∀ p ∈ ps, ∀ k c, k = .comma ∨ k = .rightBrace → Cursor.Shows c (propertyTokens p ++ [.punct k]) →
      c.token.kind ≠ .punct .rightBrace ∧ ∃ t, bindingProperty (readers (n + 1)) ctx c =
        some (t, Cursor.next^[(propertyTokens p).length] c) ∧ TakesProperty p t := by
    intro p hp k c hk hshows
    refine ⟨?_, run_bindingProperty (hvariable p hp) hyields hk hshows⟩
    unfold propertyTokens at hshows
    split at hshows
    · simp [hshows.1.kind]
    · split at hshows
      · simp [hshows.1.kind]
      · simp [hshows.1.kind]
  obtain ⟨ts, hlisted, hts⟩ := listed_of_shows Punct.noConfusion hps hitem hlist
  have hclose := ((Cursor.shows_append _).1 hlist).2.1.kind
  have hlength : ts.length ≤ c.next.size := by rwa [← hts.length_eq]
  have hend : Cursor.next^[(Binder.properties ps).tokens.length] c =
      (Cursor.next^[(commaTokens propertyTokens ps).length] c.next).next := by
    rw [Binder.tokens, List.length_cons, List.length_append, List.length_singleton, Function.iterate_succ_apply,
      Function.iterate_succ_apply']
  refine ⟨.node .objectPattern ⟨c.token.span.start, (Cursor.next^[(Binder.properties ps).tokens.length] c).lastStop⟩ ts, ?_, ?_, ?_⟩
  · rw [hend]
    simp [pattern, hopen.kind, run_commaList hlisted hlength, run_expectPunct hclose]
  · refine mapM_of_forall₂ ?_
    rw [Binder.taken, List.forall₂_map_left_iff]
    exact hts.imp fun _ _ h => h.taken
  · have hfaultless : ∀ t ∈ ts, t.anyLabel (· == .coverDefault) = false :=
      ((List.forall₂_and_left ts ps).1 (hts.flip.imp fun _ _ h => ⟨h.faultless, h⟩)).1
    rw [Tree.anyLabel, Tree.anyLabels_eq_false hfaultless]
    rfl

theorem run_pattern {b : Binder} {rest : List TokenKind} (hb : b.IsWritten) (hyields : ctx.yields = false)
    (hsize : b.width ≤ c.size) (hshows : c.Shows (b.tokens ++ rest)) :
    ∃ t, pattern (readers (n + 1)) ctx c = some (t, Cursor.next^[b.tokens.length] c) ∧ TakesAll b t := by
  cases b with
  | whole x => exact ⟨_, run_pattern_name hb hyields hshows.1.kind, rfl, rfl⟩
  | properties ps => exact run_pattern_properties hb.1 hb.2 hyields hsize hshows

/-! ### Statements -/

theorem run_looksLike (p : Parse Bool) (c : Cursor) : ∃ b, looksLike p c = some (b, c) := by
  cases h : p c with
  | none => exact ⟨false, by simp [looksLike, lookahead, h]⟩
  | some r => exact ⟨r.1, by simp [looksLike, lookahead, h]⟩

/-- A statement that is an expression alone and starts with a name. -/
theorem run_statement_expression {w : String} {value : Tree} (hw : IsLocal w) (hasync : w ≠ "async") (husing : w ≠ "using")
    (htypes : c.dialect.types = false) (hc : c.IsAt (.word w false))
    (hvalue : assignment (readers n) ctx c = some (value, c')) (hend : c'.token.kind = .punct .semicolon) :
    statement (readers (n + 1)) ctx false c = some (.node .expressionStatement ⟨c.token.span.start, c'.next.lastStop⟩ [value],
      c'.next) := by
  have hread : readers (n + 1) (.assignment ctx) c = some (value, c') := hvalue
  have hexpression : expression (readers (n + 1)) ctx c = some (value, c') := by
    simp [expression, hread, hend]
  have hstatement : expressionStatement (readers (n + 1)) ctx c =
      some (.node .expressionStatement ⟨c.token.span.start, c'.next.lastStop⟩ [value], c'.next) := by
    by_cases hname : ∃ x, value.label = .read x
    · obtain ⟨x, hname⟩ := hname
      simp [expressionStatement, hexpression, hname, hend, run_endStatement hend]
    · have hother : ∀ x, value.label = .read x → False := fun x hx => hname ⟨x, hx⟩
      simp [expressionStatement, hexpression, run_endStatement hend]
  have hsoft : softWordStatement (readers (n + 1)) ctx false w c =
      some (.node .expressionStatement ⟨c.token.span.start, c'.next.lastStop⟩ [value], c'.next) := by
    unfold softWordStatement
    simp only [run_bind, run_here, Option.bind_some]
    split
    · exact absurd hw.2 (by decide)
    · contradiction
    · contradiction
    · exact absurd hw.2 (by decide)
    · obtain ⟨b, hstarts⟩ : ∃ b, startsDeclaration c = some (b, c) := run_looksLike _ c
      simp [htypes, hstarts, hstatement]
  refine run_statement hc false ?_
  unfold wordStatement
  simp only [run_bind, run_here, Option.bind_some]
  split
  all_goals first
    | exact absurd hw.1 (by decide)
    | simp [hw.1, hsoft]

end Grammar

end LiveNotes.Script
