import LiveNotes.Proofs.Script.Lexing
import LiveNotes.Script.Grammar.Program
import Mathlib.Logic.Function.Iterate

/-! Reading a text whose tokens are known. A cursor shows the tokens in front of it, and what a reader makes of
them is followed step by step. -/

namespace LiveNotes.Script

namespace Cursor

/-- The cursor at the token at `place`, where `t` says what stands directly before. -/
def atPlace (c : Cursor) (t : Trivia) (place : Place) : Cursor :=
  let r := readToken (c.size + 1) t place
  { c with
    start := r.start, token := r.token, after := r.after
    comments := r.comments ++ c.comments, remarks := r.remarks ++ c.remarks }

/-- The cursor at the next token. -/
def next (c : Cursor) : Cursor :=
  atPlace { c with lastStop := c.token.span.stop } { keeps := Parse.keepsComments c.token.kind } c.after

/-- The current token, which no effect note stands in front of. -/
structure IsAt (c : Cursor) (kind : TokenKind) : Prop where
  kind : c.token.kind = kind
  pure : c.token.pure = false
  pureFunction : c.token.pureFunction = false

/-- The tokens from the current one on. -/
def Shows : Cursor → List TokenKind → Prop
  | _, [] => True
  | c, kind :: more => c.IsAt kind ∧ Shows c.next more

variable {c : Cursor} {tokens : List TokenKind} {text rest : List Char}

/-- What no step changes. -/
structure Agrees (c c' : Cursor) : Prop where
  flawed : c'.flawed = c.flawed
  scriptFlawed : c'.scriptFlawed = c.scriptFlawed
  namesAwait : c'.namesAwait = c.namesAwait
  dialect : c'.dialect = c.dialect
  size : c'.size = c.size

instance (c c' : Cursor) : Decidable (c.Agrees c') :=
  decidable_of_iff (c'.flawed = c.flawed ∧ c'.scriptFlawed = c.scriptFlawed ∧ c'.namesAwait = c.namesAwait ∧
      c'.dialect = c.dialect ∧ c'.size = c.size)
    ⟨fun ⟨flawed, scriptFlawed, namesAwait, dialect, size⟩ => ⟨flawed, scriptFlawed, namesAwait, dialect, size⟩,
      fun h => ⟨h.flawed, h.scriptFlawed, h.namesAwait, h.dialect, h.size⟩⟩

theorem Agrees.trans {c c' c'' : Cursor} (h : c.Agrees c') (h' : c'.Agrees c'') : c.Agrees c'' :=
  ⟨h'.flawed.trans h.flawed, h'.scriptFlawed.trans h.scriptFlawed, h'.namesAwait.trans h.namesAwait,
    h'.dialect.trans h.dialect, h'.size.trans h.size⟩

theorem agrees_iterate (n : Nat) (c : Cursor) : c.Agrees (next^[n] c) := by
  induction n generalizing c with
  | zero => exact ⟨rfl, rfl, rfl, rfl, rfl⟩
  | succ n ih =>
    rw [Function.iterate_succ_apply]
    have h := ih c.next
    exact ⟨h.flawed, h.scriptFlawed, h.namesAwait, h.dialect, h.size⟩

@[simp] theorem next_dialect (c : Cursor) : c.next.dialect = c.dialect := rfl

@[simp] theorem next_size (c : Cursor) : c.next.size = c.size := rfl

theorem next_iterate (n : Nat) (c : Cursor) : (next^[n] c).next = next^[n] c.next :=
  (Function.iterate_succ_apply' next n c).symm

theorem shows_append (more : List TokenKind) :
    c.Shows (tokens ++ more) ↔ c.Shows tokens ∧ (next^[tokens.length] c).Shows more := by
  induction tokens generalizing c with
  | nil => simp [Shows]
  | cons kind tokens ih => simp [Shows, ih, and_assoc]

/-- A cursor in front of a text shows the tokens of that text. -/
theorem shows_atPlace (h : Lexes text tokens rest) (c : Cursor) {t : Trivia} {place : Place} (hrest : place.rest = text)
    (hpure : t.pure = false) (hfunction : t.pureFunction = false) (hsize : text.length ≤ c.size) :
    (c.atPlace t place).Shows tokens := by
  induction h generalizing c t place with
  | done => exact trivial
  | @token gap text after rest kind more hstarts _ ih =>
    have hlength : text.length ≤ c.size := by
      rw [List.length_append] at hsize
      exact Nat.le_trans (Nat.le_add_left _ _) hsize
    have hplace : place = ⟨gap.text ++ text, place.pos⟩ := by rw [← hrest]
    have htoken := readToken_of_startsWith hstarts gap hlength t place.pos
    rw [← hplace] at htoken
    obtain ⟨hkind, htokenPure, htokenFunction, hafter⟩ := htoken
    refine ⟨⟨hkind, htokenPure.trans hpure, htokenFunction.trans hfunction⟩, ?_⟩
    exact ih _ hafter rfl rfl (Nat.le_trans hstarts.shorter hlength)

theorem shows_next (h : Lexes text tokens rest) (hrest : c.after.rest = text) (hsize : text.length ≤ c.size) :
    c.next.Shows tokens :=
  shows_atPlace h _ hrest rfl rfl hsize

/-- The current token is the first one of the text. -/
structure StandsAt (c : Cursor) (text : List Char) : Prop where
  solid : ∀ d ∈ text.head?, IsSolid d
  kind : c.token.kind = (readKind (text.length + 1) ⟨text, 0⟩).1
  after : c.after.rest = (readKind (text.length + 1) ⟨text, 0⟩).2.rest
  pure : c.token.pure = false
  pureFunction : c.token.pureFunction = false

instance (c : Cursor) (text : List Char) : Decidable (c.StandsAt text) :=
  decidable_of_iff (text.head?.all (fun d => decide (IsSolid d)) = true ∧
      c.token.kind = (readKind (text.length + 1) ⟨text, 0⟩).1 ∧
      c.after.rest = (readKind (text.length + 1) ⟨text, 0⟩).2.rest ∧ c.token.pure = false ∧
      c.token.pureFunction = false)
    ⟨fun ⟨solid, kind, after, pure, pureFunction⟩ => ⟨by simpa [Option.all_eq_true] using solid, kind, after, pure, pureFunction⟩,
      fun h => ⟨by simpa [Option.all_eq_true] using h.solid, h.kind, h.after, h.pure, h.pureFunction⟩⟩

theorem StandsAt.shows {kind : TokenKind} (hc : c.StandsAt text) (h : Lexes text (kind :: tokens) rest)
    (hsize : text.length ≤ c.size) : c.Shows (kind :: tokens) := by
  obtain ⟨after, hstarts, hmore⟩ := h.first hc.solid
  obtain ⟨stop, hread⟩ := hstarts.reads (text.length + 1) 0 (Nat.lt_succ_self _)
  have hkind : c.token.kind = kind := by rw [hc.kind, hread]
  have hafter : c.after.rest = after := by rw [hc.after, hread]
  exact ⟨⟨hkind, hc.pure, hc.pureFunction⟩, shows_next hmore hafter (Nat.le_trans hstarts.shorter hsize)⟩

end Cursor

namespace Parse

variable {α β : Type} {c : Cursor}

@[simp] theorem run_pure (a : α) (c : Cursor) : (pure a : Parse α) c = some (a, c) := rfl

@[simp] theorem run_bind (p : Parse α) (f : α → Parse β) (c : Cursor) :
    (p >>= f) c = (p c).bind fun r => f r.1 r.2 := rfl

@[simp] theorem run_map (f : α → β) (p : Parse α) (c : Cursor) :
    (f <$> p) c = (p c).map fun r => (f r.1, r.2) := by
  show (p c).bind _ = _
  cases p c <;> rfl

@[simp] theorem run_ite (b : Prop) [Decidable b] (p q : Parse α) (c : Cursor) :
    (if b then p else q) c = if b then p c else q c := apply_ite (fun r : Parse α => r c) b p q

@[simp] theorem run_get (c : Cursor) : (get : Parse Cursor) c = some (c, c) := rfl

@[simp] theorem run_token (c : Cursor) : token c = some (c.token, c) := rfl

@[simp] theorem run_kind (c : Cursor) : kind c = some (c.token.kind, c) := rfl

@[simp] theorem run_here (c : Cursor) : here c = some (c.token.span.start, c) := rfl

@[simp] theorem run_typesAllowed (c : Cursor) : typesAllowed c = some (c.dialect.types, c) := rfl

@[simp] theorem run_onNewLine (c : Cursor) : onNewLine c = some (c.token.newline, c) := rfl

@[simp] theorem run_advance (c : Cursor) : advance c = some ((), c.next) := rfl

@[simp] theorem run_nextToken (c : Cursor) : nextToken c = some (c.next.token, c) := rfl

@[simp] theorem run_atPunct (p : Punct) (c : Cursor) : atPunct p c = some (c.token.kind == .punct p, c) := rfl

@[simp] theorem run_atWord (w : String) (c : Cursor) : atWord w c = some (c.token.kind == .word w false, c) := rfl

@[simp] theorem run_eatPunct (p : Punct) (c : Cursor) :
    eatPunct p c = some (c.token.kind == .punct p, if c.token.kind == .punct p then c.next else c) := by
  rw [eatPunct]
  cases h : c.token.kind == .punct p with
  | true => simp [h]
  | false => simp [h]

@[simp] theorem run_eatWord (w : String) (c : Cursor) :
    eatWord w c = some (c.token.kind == .word w false, if c.token.kind == .word w false then c.next else c) := by
  rw [eatWord]
  cases h : c.token.kind == .word w false with
  | true => simp [h]
  | false => simp [h]

theorem run_expectPunct {p : Punct} (h : c.token.kind = .punct p) : expectPunct p c = some ((), c.next) := by
  simp [expectPunct, h]

theorem run_expectWord {w : String} (h : c.token.kind = .word w false) : expectWord w c = some ((), c.next) := by
  simp [expectWord, h]

theorem run_endStatement (h : c.token.kind = .punct .semicolon) : endStatement c = some ((), c.next) := by
  simp [endStatement, h]

@[simp] theorem run_finish (label : Label) (start : Nat) (kids : List Tree) (c : Cursor) :
    finish label start kids c = some (.node label ⟨start, c.lastStop⟩ kids, c) := rfl

@[simp] theorem run_flawIf_false (c : Cursor) : flawIf false c = some ((), c) := rfl


/-! ### Loops -/

/-- Exactly `n` steps, none of which is the last. -/
def repeated (step : α → Parse (Option α)) : Nat → α → Parse α
  | 0, a => pure a
  | n + 1, a => do
    match ← step a with
    | none => reject
    | some b => repeated step n b

variable {step : α → Parse (Option α)} {a b : α} {c' c'' : Cursor} {m n : Nat}

theorem repeated_succ (h : step a c = some (some b, c')) (n : Nat) :
    repeated step (n + 1) a c = repeated step n b c' := by
  simp [repeated, h]

theorem repeated_add (h : repeated step m a c = some (b, c')) (n : Nat) :
    repeated step (m + n) a c = repeated step n b c' := by
  induction m generalizing a c with
  | zero =>
    obtain ⟨rfl, rfl⟩ : a = b ∧ c = c' := by simpa [repeated] using h
    rw [Nat.zero_add]
  | succ m ih =>
    rw [Nat.add_right_comm]
    simp only [repeated, run_bind] at h ⊢
    cases hstep : step a c with
    | none => simp [hstep] at h
    | some r =>
      obtain ⟨next?, c₁⟩ := r
      cases next? with
      | none => simp [hstep, reject] at h
      | some next =>
        simp only [hstep, Option.bind_some] at h ⊢
        exact ih h

theorem run_iterate (h : repeated step n a c = some (b, c')) (fuel : Nat) :
    iterate step (n + fuel) a c = iterate step fuel b c' := by
  induction n generalizing a c with
  | zero =>
    obtain ⟨rfl, rfl⟩ : a = b ∧ c = c' := by simpa [repeated] using h
    rw [Nat.zero_add]
  | succ n ih =>
    rw [Nat.add_right_comm]
    simp only [repeated, iterate, run_bind] at h ⊢
    cases hstep : step a c with
    | none => simp [hstep] at h
    | some r =>
      obtain ⟨next?, c₁⟩ := r
      cases next? with
      | none => simp [hstep, reject] at h
      | some next =>
        simp only [hstep, Option.bind_some] at h ⊢
        exact ih h

/-- A loop makes the steps that it is known to make, and stops where it is known to stop. -/
theorem run_loop (h : repeated step n a c = some (b, c')) (hstop : step b c' = some (none, c''))
    (hsize : n ≤ c.size) : loop step a c = some (b, c'') := by
  obtain ⟨fuel, hfuel⟩ := Nat.exists_eq_add_of_le hsize
  have hiterate := run_iterate h (fuel + 1)
  have hlast : iterate step (fuel + 1) b c' = some (b, c'') := by simp [iterate, hstop]
  rw [loop, run_bind, run_get, Option.bind_some, hfuel, Nat.add_assoc, hiterate, hlast]

/-- Without a first step, a loop returns what it started with. -/
theorem run_loop_stop (hstop : step a c = some (none, c')) : loop step a c = some (a, c') :=
  run_loop (n := 0) rfl hstop (Nat.zero_le _)

theorem run_many_nil {item : Parse (Option α)} (h : item c = some (none, c')) :
    many item c = some ([], c') := by
  have hstop : manyStep item [] c = some (none, c') := by simp [manyStep, h]
  simp [many, run_loop_stop hstop]

end Parse

namespace Grammar

open Parse

variable {α : Type} {c c' : Cursor}

/-- Items with commas between them, the last of which the closing token follows. -/
inductive Listed (close : Punct) (item : Parse α) : Cursor → List α → Cursor → Prop
  | last {a : α} {c c' : Cursor} : c.token.kind ≠ .punct close → item c = some (a, c') →
      c'.token.kind = .punct close → close ≠ .comma → Listed close item c [a] c'
  | more {a : α} {items : List α} {c c₁ c' : Cursor} : c.token.kind ≠ .punct close → item c = some (a, c₁) →
      c₁.token.kind = .punct .comma → Listed close item c₁.next items c' → Listed close item c (a :: items) c'

theorem Listed.closed {close : Punct} {item : Parse α} {items : List α} (h : Listed close item c items c') :
    c'.token.kind = .punct close := by
  induction h with
  | last _ _ hclose _ => exact hclose
  | more _ _ _ _ ih => exact ih

theorem Listed.repeated {close : Punct} {item : Parse α} {items : List α} (h : Listed close item c items c')
    (found : List α) (comma : Bool) :
    repeated (commaStep close item) items.length (found, comma) c = some ((items.reverse ++ found, false), c') := by
  induction h generalizing found comma with
  | @last a c c' hopen hitem hclose hcomma =>
    have hstep : commaStep close item (found, comma) c = some (some (a :: found, false), c') := by
      simp [commaStep, hopen, hitem, hclose, hcomma]
    exact repeated_succ hstep 0
  | @more a items c c₁ c' hopen hitem hcomma _ ih =>
    have hstep : commaStep close item (found, comma) c = some (some (a :: found, true), c₁.next) := by
      simp [commaStep, hopen, hitem, hcomma]
    rw [List.length_cons, repeated_succ hstep, ih, List.reverse_cons, List.append_assoc, List.singleton_append]

theorem run_commaList {close : Punct} {item : Parse α} {items : List α} (h : Listed close item c items c')
    (hsize : items.length ≤ c.size) : commaList close item c = some (items, c') := by
  have hstop : commaStep close item (items.reverse ++ [], false) c' = some (none, c') := by
    simp [commaStep, h.closed]
  have hloop := run_loop (h.repeated [] false) hstop hsize
  simp [commaList, commaEnded, hloop]

end Grammar

end LiveNotes.Script
