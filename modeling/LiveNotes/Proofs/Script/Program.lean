import LiveNotes.Proofs.Script.Gathering
import Mathlib.Data.List.Forall2

/-! Whole programs whose statements are known, and programs by the statement that they start with. -/

namespace LiveNotes.Script

open Parse

namespace Grammar

variable {rec : Readers} {ctx : Context} {closes : TokenKind → Bool} {c c' c'' : Cursor} {b b' b'' : Bool}
  {m n : Nat} {ts us : List Tree}

/-- The next `n` statements of a body. -/
def bodyItems (rec : Readers) (ctx : Context) (closes : TokenKind → Bool) : Nat → Bool → Parse (List Tree × Bool)
  | 0, inFront => pure ([], inFront)
  | n + 1, inFront => do
    if closes (← kind) then reject
    else
      let (t, isDirective) ← bodyStatement rec ctx inFront
      let (ts, inFront) ← bodyItems rec ctx closes n isDirective
      pure (t :: ts, inFront)

theorem bodyItems_add (m n : Nat) (b : Bool) (c : Cursor) : bodyItems rec ctx closes (m + n) b c =
    (bodyItems rec ctx closes m b c).bind fun r => (bodyItems rec ctx closes n r.1.2 r.2).map fun r' =>
      ((r.1.1 ++ r'.1.1, r'.1.2), r'.2) := by
  induction m generalizing b c with
  | zero => simp [bodyItems]
  | succ m ih =>
    rw [Nat.add_right_comm]
    simp only [bodyItems, run_bind, run_kind, Option.bind_some, run_ite]
    split
    · rfl
    · cases hstatement : bodyStatement rec ctx b c with
      | none => rfl
      | some r =>
        simp only [Option.bind_some, ih]
        cases bodyItems rec ctx closes m r.1.2 r.2 with
        | none => rfl
        | some r' =>
          simp only [Option.bind_some, run_pure]
          cases bodyItems rec ctx closes n r'.1.2 r'.2 with
          | none => rfl
          | some r'' => rfl

theorem repeated_of_bodyItems (h : bodyItems rec ctx closes n b c = some ((ts, b'), c')) (found : List Tree) :
    repeated (bodyStep rec ctx closes) n (found, b) c = some ((ts.reverse ++ found, b'), c') := by
  induction n generalizing b c ts found with
  | zero =>
    simp only [bodyItems, run_pure, Option.some.injEq, Prod.mk.injEq] at h
    obtain ⟨⟨rfl, rfl⟩, rfl⟩ := h
    rfl
  | succ n ih =>
    simp only [bodyItems, run_bind, run_kind, Option.bind_some, run_ite] at h
    split at h
    · contradiction
    · next hopen =>
      obtain ⟨⟨⟨t, isDirective⟩, c₁⟩, hstatement, h⟩ := Option.bind_eq_some_iff.1 h
      obtain ⟨⟨⟨us, b₁⟩, c₂⟩, hitems, h⟩ := Option.bind_eq_some_iff.1 h
      simp only [run_pure, Option.some.injEq, Prod.mk.injEq] at h
      obtain ⟨⟨rfl, rfl⟩, rfl⟩ := h
      have hstep : bodyStep rec ctx closes (found, b) c = some (some (t :: found, isDirective), c₁) := by
        simp [bodyStep, hopen, hstatement]
      rw [repeated_succ hstep, ih hitems, List.reverse_cons, List.append_assoc, List.singleton_append]

/-- A body ends where a token that closes it stands behind its statements. -/
theorem run_bodyStatements (h : bodyItems rec ctx closes n true c = some ((ts, b), c'))
    (hclose : closes c'.token.kind = true) (hsize : n ≤ c.size) : bodyStatements rec ctx closes c = some (ts, c') := by
  have hstop : bodyStep rec ctx closes (ts.reverse ++ [], b) c' = some (none, c') := by
    simp [bodyStep, hclose]
  have hloop := run_loop (repeated_of_bodyItems h []) hstop hsize
  simp [bodyStatements, hloop]

/-- A statement that is no directive. -/
theorem bodyItems_succ_of_directive {t : Tree} (hopen : closes c.token.kind = false)
    (h : rec (.statement ctx false) c = some (t, c')) (hnone : ∀ text, directive? text t = none) (n : Nat) (b : Bool) :
    bodyItems rec ctx closes (n + 1) b c =
      (bodyItems rec ctx closes n false c').map fun r => ((t :: r.1.1, r.1.2), r.2) := by
  have hstatement : bodyStatement rec ctx b c = some ((t, false), c') := by
    cases b with
    | true => simp [bodyStatement, h, hnone]
    | false => simp [bodyStatement, h]
  simp [bodyItems, hopen, hstatement]

/-- A statement that is no expression is no directive. -/
theorem bodyItems_succ {t : Tree} (hopen : closes c.token.kind = false) (h : rec (.statement ctx false) c = some (t, c'))
    (hlabel : t.label ≠ .expressionStatement) (n : Nat) (b : Bool) : bodyItems rec ctx closes (n + 1) b c =
      (bodyItems rec ctx closes n false c').map fun r => ((t :: r.1.1, r.1.2), r.2) := by
  refine bodyItems_succ_of_directive hopen h (fun text => ?_) n b
  unfold directive?
  split
  · next heq => exact absurd rfl hlabel
  · rfl

/-- Statements that are read one by one are read one after the other. -/
theorem bodyItems_of_shows {α : Type} {tokens : α → List TokenKind} {reads : α → Tree → Prop} {as : List α}
    {more : List TokenKind}
    (hone : ∀ a ∈ as, ∀ c', c.Agrees c' → c'.Shows (tokens a) → closes c'.token.kind = false ∧
      ∃ t, rec (.statement ctx false) c' = some (t, Cursor.next^[(tokens a).length] c') ∧
        t.label ≠ .expressionStatement ∧ reads a t)
    (hshows : c.Shows (as.flatMap tokens ++ more)) (b : Bool) :
    ∃ ts b', bodyItems rec ctx closes as.length b c =
        some ((ts, b'), Cursor.next^[(as.flatMap tokens).length] c) ∧ List.Forall₂ reads as ts := by
  induction as generalizing c b with
  | nil => exact ⟨[], b, rfl, .nil⟩
  | cons a as ih =>
    obtain ⟨hfirst, hmore⟩ := List.forall_mem_cons.1 hone
    rw [List.flatMap_cons, List.append_assoc] at hshows
    obtain ⟨hshown, hrest⟩ := (Cursor.shows_append _).1 hshows
    have hsame : c.Agrees c := ⟨rfl, rfl, rfl, rfl, rfl⟩
    obtain ⟨hopen, t, hstatement, hlabel, ht⟩ := hfirst c hsame hshown
    have hagrees := Cursor.agrees_iterate (tokens a).length c
    obtain ⟨ts, b', hitems, hts⟩ := ih (c := Cursor.next^[(tokens a).length] c) (b := false)
      (fun a' ha' c' hc' => hmore a' ha' c' (hagrees.trans hc')) hrest
    refine ⟨t :: ts, b', ?_, .cons ht hts⟩
    rw [List.length_cons, bodyItems_succ hopen hstatement hlabel, hitems, List.flatMap_cons, List.length_append,
      Nat.add_comm, Function.iterate_add_apply]
    rfl

end Grammar

/-- The cursor at the first token of a text. -/
def startCursor (kind : SourceKind) (text : List Char) : Cursor :=
  Cursor.atPlace
    { start := ⟨text, 0⟩, token := ⟨.invalid, ⟨0, 0⟩, false, false, false⟩, after := ⟨text, 0⟩, lastStop := 0,
      dialect := kind.dialect, size := text.length + 1 }
    { sawNewline := true, newline := true } ⟨text, 0⟩

open Grammar

variable {kind : SourceKind} {text : List Char} {ctx : Context} {n size : Nat} {ts : List Tree} {b : Bool} {c : Cursor}

/-- The reader is at `rest` and has met no fault, `items` are the statements so far, and those behind the first `free`
of them neither import nor export anything. -/
structure FrontRead (text rest : List Char) (free : Nat) (items : List Tree) (c : Cursor) : Prop where
  inner : ∀ t ∈ items.drop free, isModuleItem t = false
  faultless : ∀ t ∈ items, t.anyLabel (· == .coverDefault) = false
  agrees : (startCursor .plainModule text).Agrees c
  stands : c.StandsAt rest

instance (text rest : List Char) (free : Nat) (items : List Tree) (c : Cursor) :
    Decidable (FrontRead text rest free items c) :=
  decidable_of_iff ((∀ t ∈ items.drop free, isModuleItem t = false) ∧
      (∀ t ∈ items, t.anyLabel (· == .coverDefault) = false) ∧ (startCursor .plainModule text).Agrees c ∧
      c.StandsAt rest)
    ⟨fun ⟨inner, faultless, agrees, stands⟩ => ⟨inner, faultless, agrees, stands⟩,
      fun h => ⟨h.inner, h.faultless, h.agrees, h.stands⟩⟩

/-- A module is read up to `rest`: `free` statements and `count` more that neither import nor export anything. -/
def ReadsUpTo (text rest : List Char) (free count : Nat) : Prop :=
  ∃ r ∈ bodyItems (readers (4 * text.length + 16)) (SourceKind.plainModule.context true) (· == .finish) (free + count)
    true (startCursor .plainModule text), FrontRead text rest free r.1.1 r.2

instance (text rest : List Char) (free count : Nat) : Decidable (ReadsUpTo text rest free count) :=
  inferInstanceAs (Decidable (∃ r ∈ _, _))

theorem hashbangLine_eq_none (h : text.head? ≠ some '#') : hashbangLine text = none := by
  unfold hashbangLine
  split
  · exact absurd rfl h
  · rfl

theorem readText_of_bodyItems (hline : hashbangLine text = none)
    (h : bodyItems (readers (4 * text.length + 16)) ctx (· == .finish) n true (startCursor kind text) = some ((ts, b), c))
    (hfinish : c.token.kind = .finish) (hn : n ≤ text.length + 1) (size : Nat) :
    readText kind ctx text size = some (.node .program ⟨0, size⟩ ts, c) := by
  have hbody := run_bodyStatements h (beq_iff_eq.2 hfinish) hn
  have hread : ∀ (t : Trivia) (place : Place) (c : Cursor), readAt t place c = some ((), c.atPlace t place) := fun _ _ _ => rfl
  simp only [readText, hline, run_bind, hread, Option.bind_some, List.nil_append]
  rw [startCursor] at hbody
  rw [hbody]
  rfl

theorem parseText_of_readText {t : Tree} (hmode : kind.mode = .always)
    (h : readText kind (kind.context true) text size = some (t, c)) : parseText kind text size = checked kind true t c := by
  simp [parseText, hmode, h]

/-- A module whose statements are known, and have no fault. -/
theorem parse_of_bodyItems {source : String} (hline : hashbangLine source.toList = none)
    (h : bodyItems (readers (4 * source.toList.length + 16)) (SourceKind.plainModule.context true) (· == .finish) n true
      (startCursor .plainModule source.toList) = some ((ts, b), c))
    (hfinish : c.token.kind = .finish) (hn : n ≤ source.toList.length + 1) (hflawed : c.flawed = false)
    (hfaultless : Tree.anyLabels (· == .coverDefault) ts = false)
    (hnames : hasDuplicates (ts.flatMap exportedNames) = false) :
    ∃ script, parse .plainModule source = some script ∧ script.tree.kids = ts := by
  have hread := readText_of_bodyItems hline h hfinish hn source.utf8ByteSize
  have hfaulty : isFaulty .plainModule (.node .program ⟨0, source.utf8ByteSize⟩ ts) = false := by
    rw [isFaulty, Tree.anyLabel, hfaultless, Tree.kids_node, hnames]
    rfl
  have hparse : parse .plainModule source = some
      ⟨.node .program ⟨0, source.utf8ByteSize⟩ ts, c.comments.reverse, c.remarks.reverse, true⟩ := by
    rw [parse, parseText_of_readText rfl hread, checked, hflawed, hfaulty, Bool.not_true, Bool.and_false]
    rfl
  exact ⟨_, hparse, rfl⟩

/-! ### Programs by their first statement -/

variable {rec : Readers} {closes : TokenKind → Bool} {found found' : List Tree} {b' : Bool} {c' : Cursor} {e t : Tree}

theorem exists_more_of_iterate {closes : TokenKind → Bool} {found found' : List Tree} {b b' : Bool}
    (h : iterate (bodyStep rec ctx closes) n (found, b) c = some ((found', b'), c')) : ∃ more, found' = more ++ found := by
  induction n generalizing found b c with
  | zero => simp [iterate, reject] at h
  | succ n ih =>
    obtain ⟨next?, c₁, hstep, h⟩ := run_bind_eq_some h
    cases next? with
    | none =>
      obtain ⟨⟨rfl, -⟩, -⟩ := by simpa using h
      exact ⟨[], rfl⟩
    | some next =>
      obtain ⟨k, _, -, hstep⟩ := run_bind_eq_some hstep
      split at hstep
      · simp at hstep
      · obtain ⟨⟨first, isDirective⟩, c₂, -, hstep⟩ := run_bind_eq_some hstep
        obtain ⟨rfl, -⟩ := by simpa using hstep
        obtain ⟨more, rfl⟩ := ih h
        exact ⟨more ++ [first], by rw [List.append_assoc, List.singleton_append]⟩

theorem exists_of_bodyStatement {b b' : Bool} (h : bodyStatement rec ctx b c = some ((e, b'), c')) :
    ∃ t, rec (.statement ctx false) c = some (t, c') ∧ ((∀ chars, directive? chars t = none) → e = t) := by
  obtain ⟨_, _, hget, h⟩ := run_bind_eq_some h
  obtain ⟨rfl, rfl⟩ := by simpa using hget
  obtain ⟨t, c₁, ht, h⟩ := run_bind_eq_some h
  cases b with
  | false =>
    obtain ⟨⟨rfl, -⟩, rfl⟩ := by simpa using h
    exact ⟨t, ht, fun _ => rfl⟩
  | true =>
    cases hdirective : directive? c.start.rest t with
    | none =>
      obtain ⟨⟨rfl, -⟩, rfl⟩ := by simpa [hdirective] using h
      exact ⟨t, ht, fun _ => rfl⟩
    | some d =>
      obtain ⟨-, rfl⟩ := by simpa [hdirective] using h
      exact ⟨t, ht, fun hnone => by simp [hnone] at hdirective⟩

theorem exists_of_bodyStep {closes : TokenKind → Bool} {found : List Tree} {b : Bool}
    {next? : Option (List Tree × Bool)} (hopen : closes c.token.kind = false)
    (h : bodyStep rec ctx closes (found, b) c = some (next?, c')) :
    ∃ first isDirective, next? = some (first :: found, isDirective) ∧
      bodyStatement rec ctx b c = some ((first, isDirective), c') := by
  obtain ⟨k, _, hkind, h⟩ := run_bind_eq_some h
  obtain ⟨rfl, rfl⟩ := by simpa using hkind
  rw [if_neg (by simp [hopen])] at h
  obtain ⟨⟨first, isDirective⟩, c₁, hstatement, h⟩ := run_bind_eq_some h
  obtain ⟨rfl, rfl⟩ := by simpa using h
  exact ⟨first, isDirective, rfl, hstatement⟩

/-- The first statement of a program is read as a statement, and so is what follows it. -/
theorem exists_statement_of_readText (hline : hashbangLine text = none)
    (hopen : (startCursor kind text).token.kind ≠ .finish) (h : readText kind ctx text size = some (t, c)) :
    ∃ first c₁, readers (4 * text.length + 16) (.statement ctx false) (startCursor kind text) = some (first, c₁) ∧
      ((∀ chars, directive? chars first = none) → t.kids.head? = some first) ∧
      (c₁.token.kind = .finish ∨
        ∃ second c₂, readers (4 * text.length + 16) (.statement ctx false) c₁ = some (second, c₂)) := by
  have hread : ∀ (t : Trivia) (place : Place) (c : Cursor), readAt t place c = some ((), c.atPlace t place) := fun _ _ _ => rfl
  simp only [readText, hline, run_bind, hread, Option.bind_some, List.nil_append] at h
  rw [← startCursor] at h
  obtain ⟨⟨items, c₀⟩, hitems, h⟩ := Option.bind_eq_some_iff.1 h
  obtain ⟨rfl, -⟩ := by simpa using h
  obtain ⟨⟨found, inFront⟩, c₁, hloop, hitems⟩ := run_bind_eq_some hitems
  obtain ⟨rfl, -⟩ := by simpa using hitems
  rw [loop, run_bind, run_get, Option.bind_some] at hloop
  obtain ⟨next?, c₂, hstep, hloop⟩ := run_bind_eq_some hloop
  obtain ⟨first, isDirective, rfl, hstatement⟩ := exists_of_bodyStep (by simpa using hopen) hstep
  obtain ⟨more, hmore⟩ := exists_more_of_iterate hloop
  obtain ⟨t, ht, hsame⟩ := exists_of_bodyStatement hstatement
  refine ⟨t, _, ht, fun hnone => ?_, ?_⟩
  · rw [Tree.kids_node, hmore, List.reverse_append, List.reverse_singleton, hsame hnone]
    rfl
  · by_cases hfinish : c₂.token.kind = .finish
    · exact .inl hfinish
    · cases hsize : (startCursor kind text).size with
      | zero =>
        rw [hsize] at hloop
        simp [iterate, reject] at hloop
      | succ n =>
        rw [hsize] at hloop
        obtain ⟨next?, c₃, hstep, -⟩ := run_bind_eq_some hloop
        obtain ⟨second, isDirective, -, hstatement⟩ := exists_of_bodyStep (by simpa using hfinish) hstep
        obtain ⟨u, hu, -⟩ := exists_of_bodyStatement hstatement
        exact .inr ⟨u, c₃, hu⟩

/-- A script that makes itself a module is read as one. -/
theorem parse_of_readText {source : String} (hmode : kind.mode ≠ .never)
    (h : ∀ waits, readText kind (kind.context waits) source.toList source.utf8ByteSize = some (t, c))
    (hitem : looksLikeModule t = true) : parse kind source = checked kind true t c := by
  cases hkind : kind.mode with
  | never => contradiction
  | always => simp [parse, parseText, hkind, h]
  | detected => simp [parse, parseText, hkind, h, hitem]

end LiveNotes.Script
