import LiveNotes.Proofs.Script.Grammar.Statements
import LiveNotes.Script.Grammar.Program

/-! The tree of a module of the plain language is made of leaves that lie apart from each other in its text. -/

namespace LiveNotes.Script

open Parse Grammar

variable {text : List Char} {ctx : Context} {size : Nat} {t : Tree} {c : Cursor}

theorem readsGoals_readers (n : Nat) : ReadsGoals text (readers n) := by
  induction n with
  | zero => exact fun _ _ _ => .reject
  | succ n ih =>
    intro g hg
    cases g with
    | assignment ctx => exact (takes_assignment ih ctx).reads
    | binary ctx least => exact (takes_binary ih ctx least).reads
    | unary ctx => exact (takes_unary ih ctx).reads
    | access ctx calls => exact (takes_accesses ih ctx calls).reads
    | pattern ctx => exact reads_pattern ih ctx
    | statement ctx alone => exact reads_statement ih ctx alone
    | type choices => simp [isPlainGoal] at hg
    | element ctx => simp [isPlainGoal] at hg

/-- The first line of a text may name a program, which is no leaf. -/
theorem hashbangLine_place {head : Tree} {place : Place} (h : hashbangLine text = some (head, place)) :
    (Place.mk text 0).Reaches place ∧ ∃ line, head = .node (.hashbang line) ⟨0, place.pos⟩ [] := by
  unfold hashbangLine at h
  split at h
  · obtain ⟨rfl, rfl⟩ := by simpa using h
    exact ⟨Place.reaches_takeWhile _ _, _, rfl⟩
  · simp at h

/-- What stands in front of the statements of a text, up to byte `n`: nothing, or the line that names a program. -/
def IsHead (n : Nat) (head : List Tree) : Prop :=
  head = [] ∨ ∃ line stop, stop ≤ n ∧ head = [.node (.hashbang line) ⟨0, stop⟩ []]

theorem IsHead.spaced {n lo hi : Nat} {head : List Tree} (h : IsHead n head) : Spaced text lo hi head := by
  rcases h with rfl | ⟨line, stop, -, rfl⟩
  · exact .nil
  · exact Spaced.nil.node rfl trivial

theorem isPlace_le {n : Nat} (h : IsPlace text n) : n ≤ Text.byteLength text := by
  obtain ⟨p, ⟨passed, hrest, hpos⟩, rfl⟩ := h
  have hlength := congrArg Text.byteLength hrest
  rw [Text.byteLength_append] at hlength
  dsimp only at hlength hpos
  omega

/-- A module is read statement by statement, behind what may name a program. -/
theorem exists_body (h : readText .plainModule ctx text size = some (t, c)) : ∃ head items c₀,
    t = .node .program ⟨0, size⟩ (head ++ items) ∧ IsHead c₀.token.span.start head ∧ Ready text c₀ ∧
    bodyStatements (readers (4 * text.length + 16)) ctx (· == .finish) c₀ = some (items, c) := by
  have hrest {head : List Tree} {place : Place} (hplace : (Place.mk text 0).Reaches place)
      {start : Cursor} (hplain : start.dialect = ⟨false, false⟩) (hzero : start.lastStop = 0) (h : (do
        readAt { sawNewline := true, newline := true } place
        let items ← bodyStatements (readers (4 * text.length + 16)) ctx (· == .finish)
        return .node .program ⟨0, size⟩ (head ++ items) : Parse Tree) start = some (t, c)) :
      ∃ items c₀, t = .node .program ⟨0, size⟩ (head ++ items) ∧ place.pos ≤ c₀.token.span.start ∧ Ready text c₀ ∧
        bodyStatements (readers (4 * text.length + 16)) ctx (· == .finish) c₀ = some (items, c) := by
    obtain ⟨_, c₁, hread, h⟩ := run_bind_eq_some h
    obtain rfl : start.atPlace { sawNewline := true, newline := true } place = c₁ :=
      congrArg Prod.snd (Option.some.inj hread)
    have hstop : IsPlace text start.lastStop := hzero ▸ ⟨⟨text, 0⟩, .refl _, rfl⟩
    have hc := Ready.ofPlace hplain hplace hstop (hzero ▸ Nat.zero_le _) { sawNewline := true, newline := true }
    have hbehind : place.pos ≤ (start.atPlace { sawNewline := true, newline := true } place).token.span.start := by
      rw [hc.span]
      exact (readToken_places (start.size + 1) _ place).1.le
    obtain ⟨items, c₂, hbody, h⟩ := run_bind_eq_some h
    obtain ⟨rfl, rfl⟩ := by simpa using h
    exact ⟨items, _, rfl, hbehind, hc, hbody⟩
  cases hline : hashbangLine text with
  | none =>
    simp only [readText, hline] at h
    obtain ⟨items, c₀, htree, -, hc, hbody⟩ := hrest (.refl _) rfl rfl h
    exact ⟨[], items, c₀, htree, .inl rfl, hc, hbody⟩
  | some line =>
    obtain ⟨head, place⟩ := line
    simp only [readText, hline] at h
    obtain ⟨hplace, line, rfl⟩ := hashbangLine_place hline
    obtain ⟨items, c₀, htree, hbehind, hc, hbody⟩ := hrest hplace rfl rfl h
    exact ⟨_, items, c₀, htree, .inr ⟨line, _, hbehind, rfl⟩, hc, hbody⟩

theorem spaced_readText (h : readText .plainModule ctx text size = some (t, c)) :
    Spaced text 0 (Text.byteLength text) [t] := by
  obtain ⟨head, items, c₀, rfl, hhead, hc, hbody⟩ := exists_body h
  have hgathers : Gathers text 0 head (do
      let items ← bodyStatements (readers (4 * text.length + 16)) ctx (· == .finish)
      return .node .program ⟨0, size⟩ (head ++ items)) fun t => [t] :=
    .bind (.bodyStatements (readsGoals_readers _) ctx _) fun items => .pureWith fun stop hts => hts.node rfl trivial
  have hrun : (do
      let items ← bodyStatements (readers (4 * text.length + 16)) ctx (· == .finish)
      return .node .program ⟨0, size⟩ (head ++ items) : Parse Tree) c₀ =
        some (.node .program ⟨0, size⟩ (head ++ items), c) := by
    rw [run_bind, hbody]
    rfl
  obtain ⟨hmove, hmade⟩ := hgathers hc (Nat.zero_le _) hhead.spaced hrun
  exact hmade.weaken (Nat.le_refl _) (isPlace_le hmove.ready.lastStop)

/-- The tree of a script was read from its text as one of its kind, and no fault was met. -/
theorem exists_readText {kind : SourceKind} {source : String} {script : Program} (h : parse kind source = some script) :
    ∃ waits size c, readText kind (kind.context waits) source.toList size = some (script.tree, c) ∧
      c.flawed = false ∧ (kind.mode = .always → waits = true) := by
  have hchecked {t : Tree} {c : Cursor} {isModule : Bool} (h : checked kind isModule t c = some script) :
      script.tree = t ∧ c.flawed = false := by
    unfold checked at h
    split at h
    · simp at h
    · next hgood =>
      obtain rfl := by simpa using h
      exact ⟨rfl, by simp_all⟩
  rw [parse, parseText] at h
  split at h
  · simp at h
  next t c hread =>
    dsimp only at h
    split at h
    · obtain ⟨⟨t, c⟩, hread, h⟩ := Option.bind_eq_some_iff.1 h
      obtain ⟨rfl, hflawed⟩ := hchecked h
      exact ⟨_, _, c, hread, hflawed, fun _ => rfl⟩
    · obtain ⟨rfl, hflawed⟩ := hchecked h
      exact ⟨_, _, c, hread, hflawed, fun hmode => by simp [hmode]⟩

/-- The leaves of a module lie apart from each other in its text. -/
theorem spaced_parse {source : String} {script : Program} (h : parse .plainModule source = some script) :
    Spaced source.toList 0 (Text.byteLength source.toList) [script.tree] := by
  obtain ⟨waits, size, c, hread, -⟩ := exists_readText h
  exact spaced_readText hread

/-- A script is a list of statements. -/
theorem label_parse {kind : SourceKind} {source : String} {script : Program} (h : parse kind source = some script) :
    script.tree.label = .program := by
  obtain ⟨waits, size, c, hread, -⟩ := exists_readText h
  unfold readText at hread
  dsimp only at hread
  obtain ⟨_, _, _, hread⟩ := run_bind_eq_some hread
  obtain ⟨items, c', _, hread⟩ := run_bind_eq_some hread
  obtain ⟨htree, _⟩ := by simpa using hread
  rw [← htree]
  rfl

end LiveNotes.Script
