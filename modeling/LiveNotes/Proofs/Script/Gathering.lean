import LiveNotes.Proofs.Script.Marks
import LiveNotes.Proofs.Script.Reading

/-! Readers of the plain language only move forward in the text, and the trees that they return are made of
leaves between the token where they start and the last one they read. A reader that goes on from trees read before
it keeps them apart from what it reads itself; this is how the readers are put together. -/

namespace LiveNotes.Script

open Text

variable {text : List Char} {lo hi : Nat}

/-- The cursor of a reader of the plain language that stands at a token of the text. -/
structure Ready (text : List Char) (c : Cursor) : Prop where
  plain : c.dialect = ⟨false, false⟩
  start : (Place.mk text 0).Reaches c.start
  after : c.start.Reaches c.after
  span : c.token.span = ⟨c.start.pos, c.after.pos⟩
  word : ∀ w escaped, c.token.kind = .word w escaped →
    ∃ passed, c.start.Passes passed c.after ∧ (passed = w.toList ∨ '\x5c' ∈ passed)
  name : ∀ w escaped, c.token.kind = .word w escaped → isIdentifierName w = true
  mark : ∀ mark, c.token.kind = .punct mark → ∃ n, punct? c.start.rest = some (mark, n)
  lastStop : IsPlace text c.lastStop
  behind : c.lastStop ≤ c.start.pos

/-- `c'` is a later cursor in the text, or the same. No fault is forgotten. -/
structure Onward (text : List Char) (c c' : Cursor) : Prop where
  ready : Ready text c'
  lastStop : c.lastStop ≤ c'.lastStop
  here : c.token.span.start ≤ c'.token.span.start
  flawed : c.flawed = true → c'.flawed = true

variable {c c' c'' : Cursor}

theorem Onward.refl (h : Ready text c) : Onward text c c := ⟨h, Nat.le_refl _, Nat.le_refl _, id⟩

theorem Onward.trans (h : Onward text c c') (h' : Onward text c' c'') : Onward text c c'' :=
  ⟨h'.ready, Nat.le_trans h.lastStop h'.lastStop, Nat.le_trans h.here h'.here, h'.flawed ∘ h.flawed⟩

namespace Ready

theorem here (h : Ready text c) : IsPlace text c.token.span.start := ⟨c.start, h.start, by rw [h.span]⟩

theorem there (h : Ready text c) : IsPlace text c.token.span.stop :=
  ⟨c.after, h.start.trans h.after, by rw [h.span]⟩

theorem here_le (h : Ready text c) : c.token.span.start ≤ c.token.span.stop := by
  rw [h.span]
  exact h.after.le

theorem lastStop_le (h : Ready text c) : c.lastStop ≤ c.token.span.start := by
  rw [h.span]
  exact h.behind

/-- The cursor at the token behind a place of the text. -/
theorem ofPlace (hplain : c.dialect = ⟨false, false⟩) {place : Place} (hplace : (Place.mk text 0).Reaches place)
    (hstop : IsPlace text c.lastStop) (hbehind : c.lastStop ≤ place.pos) (t : Trivia) :
    Ready text (Cursor.atPlace c t place) := by
  obtain ⟨hstart, hafter⟩ := readToken_places (c.size + 1) t place
  exact ⟨hplain, hplace.trans hstart, hafter, readToken_span _ t place, fun w escaped hw => readToken_word hw,
    fun w escaped hw => isIdentifierName_of_readToken hw, fun mark hmark => readToken_punct hmark, hstop, Nat.le_trans hbehind hstart.le⟩

/-- The cursor at the token behind a place up to which the tokens were read. -/
theorem atPlace (h : Ready text c) {place : Place} (hplace : c.start.Reaches place) (t : Trivia) :
    Onward text c (Cursor.atPlace { c with lastStop := place.pos } t place) := by
  have htext := h.start.trans hplace
  refine ⟨ofPlace (c := { c with lastStop := place.pos }) h.plain htext ⟨place, htext, rfl⟩ (Nat.le_refl _) t, ?_, ?_, id⟩
  · exact Nat.le_trans h.behind hplace.le
  · show _ ≤ (readToken (c.size + 1) t place).token.span.start
    rw [h.span, readToken_span]
    exact Nat.le_trans hplace.le (readToken_places (c.size + 1) t place).1.le

theorem next (h : Ready text c) : Onward text c c.next := by
  have hstop : c.token.span.stop = c.after.pos := by rw [h.span]
  rw [Cursor.next, hstop]
  exact h.atPlace h.after _

/-- Characters up to a place behind the start of the current token are taken for it. -/
theorem advanceFrom (h : Ready text c) {place : Place} (hplace : c.start.Reaches place) {u : Unit}
    (hrun : Parse.advanceFrom place c = some (u, c')) : Onward text c c' ∧ c'.lastStop = place.pos := by
  have hadvance : Parse.advanceFrom place c =
      some ((), Cursor.atPlace { c with lastStop := place.pos } {} place) := rfl
  obtain ⟨_, rfl⟩ := by simpa [hadvance] using hrun
  exact ⟨h.atPlace hplace _, rfl⟩

/-- The current token, if it is a word, is spelled in the text. -/
theorem spells (h : Ready text c) {w : String} {escaped : Bool} (hw : c.token.kind = .word w escaped) :
    c.token.span.Spells text w := by
  obtain ⟨passed, hpassed, hspelled⟩ := h.word w escaped hw
  obtain ⟨before, hbefore⟩ := h.start
  refine ⟨passed, ⟨before, c.after.rest, ?_, ?_, ?_⟩, hspelled⟩
  · exact (hbefore.trans hpassed).rest
  · rw [h.span, hbefore.pos, Nat.zero_add]
  · rw [h.span, hpassed.pos, hbefore.pos, Nat.zero_add]

/-- A word is not empty. -/
theorem here_lt (h : Ready text c) {w : String} {escaped : Bool} (hw : c.token.kind = .word w escaped) :
    c.token.span.start < c.token.span.stop := by
  obtain ⟨passed, hpassed, hspelled⟩ := h.word w escaped hw
  have hne : passed ≠ [] := by
    rintro rfl
    rcases hspelled with hempty | hmem
    · have hname := h.name w escaped hw
      rw [isIdentifierName, ← hempty] at hname
      contradiction
    · contradiction
  obtain ⟨first, rest, rfl⟩ := List.exists_cons_of_ne_nil hne
  have hpos := hpassed.pos
  have hsize := first.utf8Size_pos
  rw [byteLength] at hpos
  simp only [h.span]
  omega

end Ready

/-! ### Readers -/

/-- The reader only moves forward. -/
def Quiet {α : Type} (text : List Char) (p : Parse α) : Prop :=
  ∀ ⦃c a c'⦄, Ready text c → p c = some (a, c') → Onward text c c'

/-- From trees `ts` between `lo` and the last token on, the reader makes trees of these and of what it reads. -/
def Gathers {α : Type} (text : List Char) (lo : Nat) (ts : List Tree) (p : Parse α) (made : α → List Tree) : Prop :=
  ∀ ⦃c a c'⦄, Ready text c → lo ≤ c.token.span.start → Spaced text lo c.lastStop ts → p c = some (a, c') →
    Onward text c c' ∧ Spaced text lo c'.lastStop (made a)

/-- The reader makes trees of what it reads. -/
def Gives {α : Type} (text : List Char) (p : Parse α) (made : α → List Tree) : Prop :=
  ∀ lo, Gathers text lo [] p made

/-- The reader makes one tree of what it reads. -/
def Reads (text : List Char) (p : Parse Tree) : Prop := Gives text p fun t => [t]

/-- The reader makes trees of the text from `lo` on, some of which was read before. -/
def Closes {α : Type} (text : List Char) (lo : Nat) (p : Parse α) (made : α → List Tree) : Prop :=
  ∀ ⦃c a c'⦄, Ready text c → lo ≤ c.lastStop → p c = some (a, c') →
    Onward text c c' ∧ Spaced text lo c'.lastStop (made a)

/-- The reader makes trees of the text from the current token on, which is at `start`, and takes that token. -/
def Starts {α : Type} (text : List Char) (start : Nat) (p : Parse α) (made : α → List Tree) : Prop :=
  ∀ ⦃c a c'⦄, Ready text c → c.token.span.start = start → p c = some (a, c') →
    Onward text c c' ∧ Spaced text start c'.lastStop (made a) ∧ start ≤ c'.lastStop

/-- The reader takes the token where it starts, if it returns what is looked for. -/
def Moves {α : Type} (text : List Char) (p : Parse α) (found : α → Prop) : Prop :=
  ∀ ⦃c a c'⦄, Ready text c → p c = some (a, c') → found a → c.token.span.start ≤ c'.lastStop

/-- The reader takes the token where it starts, and makes one tree of what it reads. -/
structure Takes (text : List Char) (p : Parse Tree) : Prop where
  reads : Reads text p
  moves : Moves text p fun _ => True

/-- What the reader returns has the property. -/
def Yields {α : Type} (p : Parse α) (holds : α → Prop) : Prop := ∀ ⦃c a c'⦄, p c = some (a, c') → holds a

section Rules

open Parse

variable {α β : Type} {ts us : List Tree} {p : Parse α} {q : α → Parse β} {made : β → List Tree}
  {first : α → List Tree}

theorem run_bind_eq_some {b : β} (h : (p >>= q) c = some (b, c'')) :
    ∃ a c', p c = some (a, c') ∧ q a c' = some (b, c'') := by
  rw [run_bind, Option.bind_eq_some_iff] at h
  obtain ⟨⟨a, c'⟩, hp, hq⟩ := h
  exact ⟨a, c', hp, hq⟩

namespace Quiet

theorem pure (a : α) : Quiet text (pure a : Parse α) := by
  intro c a' c' hc hrun
  obtain ⟨rfl, rfl⟩ := by simpa using hrun
  exact .refl hc

theorem reject : Quiet text (reject : Parse α) := fun _ _ _ _ hrun => by simp [Parse.reject] at hrun

theorem bind (hp : Quiet text p) (hq : ∀ a, Quiet text (q a)) : Quiet text (p >>= q) := by
  intro c b c'' hc hrun
  obtain ⟨a, c', hfirst, hrest⟩ := run_bind_eq_some hrun
  have hmove := hp hc hfirst
  exact hmove.trans (hq a hmove.ready hrest)

theorem map {first : α → β} (hp : Quiet text p) : Quiet text (first <$> p) := by
  intro c b c' hc hrun
  rw [run_map, Option.map_eq_some_iff] at hrun
  obtain ⟨⟨a, c₁⟩, hfirst, h⟩ := hrun
  obtain ⟨_, rfl⟩ := by simpa using h
  exact hp hc hfirst

/-- No types are read. -/
theorem types {q : Bool → Parse β} (hq : Quiet text (q false)) : Quiet text (typesAllowed >>= q) := by
  intro c b c'' hc hrun
  obtain ⟨a, c', hfirst, hrest⟩ := run_bind_eq_some hrun
  obtain ⟨rfl, rfl⟩ := by simpa [hc.plain] using hfirst
  exact hq hc hrest

theorem ite {b : Prop} [Decidable b] {p q : Parse α} (hp : Quiet text p) (hq : Quiet text q) :
    Quiet text (if b then p else q) := by
  split
  · exact hp
  · exact hq

end Quiet

namespace Yields

variable {holds : β → Prop}

theorem pure {b : β} (h : holds b) : Yields (pure b) holds := fun _ _ _ hrun => by
  obtain ⟨rfl, _⟩ := by simpa using hrun
  exact h

theorem reject : Yields (reject : Parse β) holds := fun _ _ _ hrun => by simp [Parse.reject] at hrun

theorem seq {from_ : α → Prop} (hp : Yields p from_) (hq : ∀ a, from_ a → Yields (q a) holds) :
    Yields (p >>= q) holds := fun _ _ _ hrun => by
  obtain ⟨a, c', hfirst, hrest⟩ := run_bind_eq_some hrun
  exact hq a (hp hfirst) hrest

theorem bind (hq : ∀ a, Yields (q a) holds) : Yields (p >>= q) holds := fun _ _ _ hrun => by
  obtain ⟨a, c', _, hrest⟩ := run_bind_eq_some hrun
  exact hq a hrest

theorem ite {b : Prop} [Decidable b] {p q : Parse β} (hp : Yields p holds) (hq : Yields q holds) :
    Yields (if b then p else q) holds := by
  split
  · exact hp
  · exact hq

theorem finish {label : Label} {start : Nat} {ks : List Tree} {holds : Tree → Prop}
    (h : ∀ span, holds (.node label span ks)) : Yields (finish label start ks) holds := fun _ _ _ hrun => by
  obtain ⟨rfl, _⟩ := by simpa using hrun
  exact h _

end Yields

namespace Gathers

/-- What a reader makes when it goes on from a later cursor. -/
theorem run {made : α → List Tree} {a : α} (hp : Gathers text lo ts p made) (hmove : Onward text c c')
    (hlo : lo ≤ c.token.span.start) (hts : Spaced text lo c'.lastStop ts) (hrun : p c' = some (a, c'')) :
    Onward text c c'' ∧ Spaced text lo c''.lastStop (made a) := by
  obtain ⟨hmore, hmade⟩ := hp hmove.ready (Nat.le_trans hlo hmove.here) hts hrun
  exact ⟨hmove.trans hmore, hmade⟩

theorem runTree {p : Parse Tree} {t : Tree} (hp : Gathers text lo ts p fun t => [t]) (hmove : Onward text c c')
    (hlo : lo ≤ c.token.span.start) (hts : Spaced text lo c'.lastStop ts) (hrun : p c' = some (t, c'')) :
    Onward text c c'' ∧ Spaced text lo c''.lastStop [t] := hp.run hmove hlo hts hrun

theorem quiet (hp : Quiet text p) (hq : ∀ a, Gathers text lo ts (q a) made) :
    Gathers text lo ts (p >>= q) made := by
  intro c b c'' hc hlo hts hrun
  obtain ⟨a, c', hfirst, hrest⟩ := run_bind_eq_some hrun
  have hmove := hp hc hfirst
  exact (hq a).run hmove hlo (hts.weaken (Nat.le_refl _) hmove.lastStop) hrest

theorem seq (hp : Gathers text lo ts p first) (hq : ∀ a, Gathers text lo (first a) (q a) made) :
    Gathers text lo ts (p >>= q) made := by
  intro c b c'' hc hlo hts hrun
  obtain ⟨a, c', hfirst, hrest⟩ := run_bind_eq_some hrun
  obtain ⟨hmove, hfound⟩ := hp hc hlo hts hfirst
  exact (hq a).run hmove hlo hfound hrest

/-- What is read on its own stands behind what was read before. -/
theorem frame (hp : Gives text p first) : Gathers text lo ts p fun a => ts ++ first a := by
  intro c a c' hc hlo hts hrun
  obtain ⟨hmove, hfound⟩ := hp c.token.span.start hc (Nat.le_refl _) .nil hrun
  exact ⟨hmove, hts.append hfound hc.lastStop_le hlo hmove.lastStop⟩

theorem bind (hp : Gives text p first) (hq : ∀ a, Gathers text lo (ts ++ first a) (q a) made) :
    Gathers text lo ts (p >>= q) made := seq (frame hp) hq

theorem read {p : Parse Tree} {q : Tree → Parse β} (hp : Reads text p)
    (hq : ∀ t, Gathers text lo (ts ++ [t]) (q t) made) : Gathers text lo ts (p >>= q) made := bind hp hq

theorem after {made : α → List Tree} (hp : Gathers text lo ts p made) {made' : α → List Tree}
    (h : ∀ a stop, Spaced text lo stop (made a) → Spaced text lo stop (made' a)) : Gathers text lo ts p made' := by
  intro c a c' hc hlo hts hrun
  obtain ⟨hmove, hmade⟩ := hp hc hlo hts hrun
  exact ⟨hmove, h a _ hmade⟩

theorem before {made : α → List Tree} (h : ∀ stop, Spaced text lo stop ts → Spaced text lo stop us)
    (hp : Gathers text lo us p made) : Gathers text lo ts p made :=
  fun _ _ _ hc hlo hts hrun => hp hc hlo (h _ hts) hrun

theorem drop {made : α → List Tree} (hus : us.Sublist ts) (hp : Gathers text lo us p made) :
    Gathers text lo ts p made := hp.before fun _ hts => hts.drop hus

theorem perm {made : α → List Tree} (hus : us.Perm ts) (hp : Gathers text lo us p made) :
    Gathers text lo ts p made := hp.before fun _ hts => hts.perm hus

theorem pureWith {made : α → List Tree} {a : α} (h : ∀ stop, Spaced text lo stop ts → Spaced text lo stop (made a)) :
    Gathers text lo ts (pure a : Parse α) made := by
  intro c a' c' hc hlo hts hrun
  obtain ⟨rfl, rfl⟩ := by simpa using hrun
  exact ⟨.refl hc, h _ hts⟩

theorem pure {made : α → List Tree} {a : α} (h : ts = made a) : Gathers text lo ts (pure a : Parse α) made :=
  pureWith fun _ hts => h ▸ hts

theorem reject {made : α → List Tree} : Gathers text lo ts (reject : Parse α) made :=
  fun _ _ _ _ _ _ hrun => by simp [Parse.reject] at hrun

theorem rejectBind : Gathers text lo ts ((Parse.reject : Parse α) >>= q) made  :=
  fun _ _ _ _ _ _ hrun => by simp [Parse.reject] at hrun

theorem ite {b : Prop} [Decidable b] {p q : Parse α} {made : α → List Tree} (hp : Gathers text lo ts p made)
    (hq : Gathers text lo ts q made) : Gathers text lo ts (if b then p else q) made := by
  split
  · exact hp
  · exact hq

/-- A node that takes the place of the trees that were read. -/
theorem finishWith {label : Label} {start : Nat} {ks : List Tree}
    (h : ∀ span stop, Spaced text lo stop ts → Spaced text lo stop [.node label span ks]) :
    Gathers text lo ts (finish label start ks) fun t => [t] := by
  intro c t c' hc hlo hts hrun
  obtain ⟨rfl, rfl⟩ := by simpa using hrun
  exact ⟨.refl hc, h _ _ hts⟩

/-- A node of the trees that were read. -/
theorem finish {label : Label} {start : Nat} (hinner : label.isInner = true)
    (hfits : ∀ span, Fits text label span ts) : Gathers text lo ts (finish label start ts) fun t => [t] :=
  finishWith fun span _ hts => hts.node hinner (hfits span)

/-- A node with which the reading goes on. -/
theorem node {label : Label} {start : Nat} {ks : List Tree} {q : Tree → Parse β}
    (hq : ∀ span, Gathers text lo ts (q (.node label span ks)) made) :
    Gathers text lo ts (Parse.finish label start ks >>= q) made :=
  fun _ _ _ hc hlo hts hrun => hq _ hc hlo hts (by simpa using hrun)

/-- No types are read. -/
theorem types {q : Bool → Parse β} (hq : Gathers text lo ts (q false) made) :
    Gathers text lo ts (typesAllowed >>= q) made := by
  intro c b c'' hc hlo hts hrun
  obtain ⟨a, c', hfirst, hrest⟩ := run_bind_eq_some hrun
  obtain ⟨rfl, rfl⟩ := by simpa [hc.plain] using hfirst
  exact hq hc hlo hts hrest

end Gathers

namespace Closes

variable {made : β → List Tree}

theorem quiet (hp : Quiet text p) (hq : ∀ a, Closes text lo (q a) made) : Closes text lo (p >>= q) made := by
  intro c b c'' hc hlo hrun
  obtain ⟨a, c', hfirst, hrest⟩ := run_bind_eq_some hrun
  have hmove := hp hc hfirst
  obtain ⟨hmore, hmade⟩ := hq a hmove.ready (Nat.le_trans hlo hmove.lastStop) hrest
  exact ⟨hmove.trans hmore, hmade⟩

theorem ite {b : Prop} [Decidable b] {p q : Parse α} {made : α → List Tree} (hp : Closes text lo p made)
    (hq : Closes text lo q made) : Closes text lo (if b then p else q) made := by
  split
  · exact hp
  · exact hq

theorem quietWith {holds : α → Prop} (hp : Quiet text p) (hyields : Yields p holds)
    (hq : ∀ a, holds a → Closes text lo (q a) made) : Closes text lo (p >>= q) made := by
  intro c b c'' hc hlo hrun
  obtain ⟨a, c', hfirst, hrest⟩ := run_bind_eq_some hrun
  have hmove := hp hc hfirst
  obtain ⟨hmore, hmade⟩ := hq a (hyields hfirst) hmove.ready (Nat.le_trans hlo hmove.lastStop) hrest
  exact ⟨hmove.trans hmore, hmade⟩

/-- No types are read. -/
theorem types {q : Bool → Parse β} (hq : Closes text lo (q false) made) :
    Closes text lo (typesAllowed >>= q) made := by
  intro c b c'' hc hlo hrun
  obtain ⟨a, c', hfirst, hrest⟩ := run_bind_eq_some hrun
  obtain ⟨rfl, rfl⟩ := by simpa [hc.plain] using hfirst
  exact hq hc hlo hrest

theorem of_gathers (hp : Gathers text lo [] p first) : Closes text lo p first :=
  fun _ _ _ hc hlo hrun => hp hc (Nat.le_trans hlo hc.lastStop_le) .nil hrun

/-- A leaf that starts at `lo`. -/
theorem finish {label : Label} {ks : List Tree} (hlo : IsPlace text lo) (hleaf : label.isLeaf = true)
    (hregular : ∀ span, Regular text (.node label span ks)) : Closes text lo (finish label lo ks) fun t => [t] := by
  intro c t c' hc hstart hrun
  obtain ⟨rfl, rfl⟩ := by simpa using hrun
  exact ⟨.refl hc, .leaf hleaf (hregular ⟨lo, c.lastStop⟩) hlo hc.lastStop hstart⟩

end Closes

namespace Starts

variable {made : β → List Tree} {start : Nat}

theorem of_takes {p : Parse Tree} (hp : Takes text p) : Starts text start p fun t => [t] :=
  fun _ _ _ hc hstart hrun => by
    obtain ⟨hmove, hmade⟩ := hp.reads start hc (Nat.le_of_eq hstart.symm) .nil hrun
    exact ⟨hmove, hmade, hstart ▸ hp.moves hc hrun trivial⟩

theorem of_closes {p : Parse β} (hp : Closes text start p made) (hmove : Onward text c c') (hle : start ≤ c'.lastStop)
    {b : β} (hrun : p c' = some (b, c'')) : Onward text c c'' ∧ Spaced text start c''.lastStop (made b) ∧
      start ≤ c''.lastStop := by
  obtain ⟨hmore, hmade⟩ := hp hmove.ready hle hrun
  exact ⟨hmove.trans hmore, hmade, Nat.le_trans hle hmore.lastStop⟩

/-- The first token only says what follows. -/
theorem advance {q : Unit → Parse β} (hq : Closes text start (q ()) made) :
    Starts text start (advance >>= q) made := by
  intro c b c'' hc hstart hrun
  obtain ⟨_, c₁, hadvance, hrest⟩ := run_bind_eq_some hrun
  obtain rfl : c.next = c₁ := by simpa using hadvance
  exact of_closes hq hc.next (hstart ▸ hc.here_le) hrest

theorem expectWord {w : String} {q : Unit → Parse β} (hq : Closes text start (q ()) made) :
    Starts text start (expectWord w >>= q) made := by
  intro c b c'' hc hstart hrun
  obtain ⟨_, c₁, hword, hrest⟩ := run_bind_eq_some hrun
  have hat : c.token.kind = .word w false := by
    by_contra hne
    simp [Parse.expectWord, hne, Parse.reject] at hword
  obtain rfl : c.next = c₁ := by simpa [run_expectWord hat] using hword
  exact of_closes hq hc.next (hstart ▸ hc.here_le) hrest

theorem seq (hp : Starts text start p first) (hq : ∀ a, Gathers text start (first a) (q a) made) :
    Starts text start (p >>= q) made := by
  intro c b c'' hc hstart hrun
  obtain ⟨a, c₁, hfirst, hrest⟩ := run_bind_eq_some hrun
  obtain ⟨hmove, hmade, hle⟩ := hp hc hstart hfirst
  obtain ⟨hmore, hlast⟩ := hq a hmove.ready (hstart ▸ hmove.here) hmade hrest
  exact ⟨hmove.trans hmore, hlast, Nat.le_trans hle hmore.lastStop⟩

/-- The first token is looked at. -/
theorem look (hp : ∀ c a c', p c = some (a, c') → c' = c) (hq : ∀ a, Starts text start (q a) made) :
    Starts text start (p >>= q) made := by
  intro c b c'' hc hstart hrun
  obtain ⟨a, c₁, hfirst, hrest⟩ := run_bind_eq_some hrun
  obtain rfl := hp c a c₁ hfirst
  exact hq a hc hstart hrest

theorem ite {b : Prop} [Decidable b] {p q : Parse α} {made : α → List Tree} (hp : Starts text start p made)
    (hq : Starts text start q made) : Starts text start (if b then p else q) made := by
  split
  · exact hp
  · exact hq

end Starts

namespace Gives

variable {made : α → List Tree}

/-- What is made of the text from the current token on. -/
theorem starts {q : Nat → Parse α} (hq : ∀ start, IsPlace text start → Starts text start (q start) made) :
    Gives text (here >>= q) made := by
  intro lo c a c'' hc hlo _ hrun
  obtain ⟨start, c', hfirst, hrest⟩ := run_bind_eq_some hrun
  obtain ⟨rfl, rfl⟩ := by simpa using hfirst
  obtain ⟨hmove, hmade, -⟩ := hq _ hc.here hc rfl hrest
  exact ⟨hmove, hmade.weaken hlo (Nat.le_refl _)⟩

end Gives

theorem Gives.quiet {made : α → List Tree} (h : Gives text p made) : Quiet text p :=
  fun _ _ _ hc hrun => (h 0 hc (Nat.zero_le _) .nil hrun).1

theorem Reads.quiet {p : Parse Tree} (h : Reads text p) : Quiet text p := Gives.quiet h

theorem Takes.quiet {p : Parse Tree} (h : Takes text p) : Quiet text p := h.reads.quiet

/-! ### Steps of a cursor -/

attribute [simp] Quiet.pure Quiet.reject Quiet.bind Quiet.map Quiet.ite

@[simp] theorem quiet_get : Quiet text (get : Parse Cursor) := fun c a c' hc hrun => by
  obtain ⟨_, rfl⟩ := by simpa using hrun
  exact .refl hc

@[simp] theorem quiet_advance : Quiet text advance := fun c a c' hc hrun => by
  obtain rfl : c.next = c' := by simpa using hrun
  exact hc.next

@[simp] theorem quiet_token : Quiet text token := by simp [token]

@[simp] theorem quiet_here : Quiet text here := by simp [here]

@[simp] theorem quiet_kind : Quiet text kind := by simp [kind]

@[simp] theorem quiet_typesAllowed : Quiet text typesAllowed := by simp [typesAllowed]

@[simp] theorem quiet_onNewLine : Quiet text onNewLine := by simp [onNewLine]

@[simp] theorem quiet_holeHere : Quiet text holeHere := by simp [holeHere]

@[simp] theorem quiet_finish (label : Label) (start : Nat) (kids : List Tree) :
    Quiet text (finish label start kids) := by simp [finish]

@[simp] theorem quiet_atPunct (mark : Punct) : Quiet text (atPunct mark) := by simp [atPunct]

@[simp] theorem quiet_eatPunct (mark : Punct) : Quiet text (eatPunct mark) := by simp [eatPunct]

@[simp] theorem quiet_expectPunct (mark : Punct) : Quiet text (expectPunct mark) := by simp [expectPunct]

@[simp] theorem quiet_atWord (w : String) : Quiet text (atWord w) := by simp [atWord]

@[simp] theorem quiet_eatWord (w : String) : Quiet text (eatWord w) := by simp [eatWord]

@[simp] theorem quiet_expectWord (w : String) : Quiet text (expectWord w) := by simp [expectWord]

@[simp] theorem quiet_canEndStatement : Quiet text canEndStatement := by simp [canEndStatement]

@[simp] theorem quiet_endStatement : Quiet text endStatement := by simp [endStatement]

theorem quiet_modify {note : Cursor → Cursor} (h : ∀ c, Ready text c → Onward text c (note c)) :
    Quiet text (modify note : Parse Unit) := fun c a c' hc hrun => by
  obtain rfl : note c = c' := by simpa [modify, modifyGet, MonadStateOf.modifyGet, StateT.modifyGet] using hrun
  exact h c hc

@[simp] theorem quiet_flaw : Quiet text flaw :=
  quiet_modify fun _ h => ⟨{ h with }, Nat.le_refl _, Nat.le_refl _, fun _ => rfl⟩

@[simp] theorem quiet_flawScript : Quiet text flawScript :=
  quiet_modify fun _ h => ⟨{ h with }, Nat.le_refl _, Nat.le_refl _, id⟩

@[simp] theorem quiet_flawIf (b : Bool) : Quiet text (flawIf b) := by simp [flawIf]

/-- A note of a fault changes nothing else. -/
theorem flawIf_keeps {b : Bool} {u : Unit} (h : flawIf b c = some (u, c')) :
    c'.start = c.start ∧ c'.token = c.token ∧ c'.lastStop = c.lastStop := by
  rw [flawIf] at h
  split at h
  · obtain rfl : { c with flawed := true } = c' := by
      simpa [flaw, modify, modifyGet, MonadStateOf.modifyGet, StateT.modifyGet] using h
    exact ⟨rfl, rfl, rfl⟩
  · obtain ⟨_, rfl⟩ := by simpa using h
    exact ⟨rfl, rfl, rfl⟩

@[simp] theorem quiet_lookahead (p : Parse α) : Quiet text (lookahead p) := fun c a c' hc hrun => by
  rw [lookahead] at hrun
  split at hrun
  all_goals
    obtain ⟨_, rfl⟩ := by simpa using hrun
    exact .refl hc

@[simp] theorem quiet_looksLike (p : Parse Bool) : Quiet text (looksLike p) := by simp [looksLike]

@[simp] theorem quiet_nextToken : Quiet text nextToken := by
  refine (quiet_lookahead _).bind fun found => ?_
  split <;> simp

/-! ### Readers that take a token -/

namespace Moves

variable {found : β → Prop}

theorem reject : Moves text (reject : Parse β) found := fun _ _ _ _ h => by simp [Parse.reject] at h

/-- Nothing is claimed when nothing was found. -/
theorem pure {b : β} (h : ¬found b) : Moves text (pure b) found := fun _ _ _ _ hrun hfound => by
  obtain ⟨rfl, _⟩ := by simpa using hrun
  exact (h hfound).elim

theorem ite {b : Prop} [Decidable b] {p q : Parse β} (hp : Moves text p found) (hq : Moves text q found) :
    Moves text (if b then p else q) found := by
  split
  · exact hp
  · exact hq

/-- The token is taken behind what is read first. -/
theorem behind (hp : Quiet text p) (hq : ∀ a, Moves text (q a) found) : Moves text (p >>= q) found :=
  fun _ _ _ hc h hfound => by
    obtain ⟨a, _, hfirst, h⟩ := run_bind_eq_some h
    have hmove := hp hc hfirst
    exact Nat.le_trans hmove.here (hq a hmove.ready h hfound)

/-- The token is taken at first. -/
theorem atOnce (hp : Moves text p fun _ => True) (hquiet : Quiet text p)
    (hq : ∀ a, Quiet text (q a)) : Moves text (p >>= q) found := fun _ _ _ hc h _ => by
  obtain ⟨a, _, hfirst, h⟩ := run_bind_eq_some h
  exact Nat.le_trans (hp hc hfirst trivial) (hq a (hquiet hc hfirst).ready h).lastStop

theorem types {q : Bool → Parse β} (hq : Moves text (q false) found) : Moves text (typesAllowed >>= q) found :=
  fun _ _ _ hc h hfound => by
    obtain ⟨_, _, htypes, h⟩ := run_bind_eq_some h
    obtain ⟨rfl, rfl⟩ := by simpa [hc.plain] using htypes
    exact hq hc h hfound

end Moves

theorem moves_advance : Moves text advance fun _ => True := fun c _ _ hc h _ => by
  obtain rfl := by simpa using h
  exact hc.here_le

theorem moves_expectPunct (mark : Punct) : Moves text (expectPunct mark) fun _ => True := fun c _ _ hc h _ => by
  by_cases hat : c.token.kind = .punct mark
  · obtain rfl := by simpa [run_expectPunct hat] using h
    exact hc.here_le
  · simp [expectPunct, hat, reject] at h

theorem moves_expectWord (w : String) : Moves text (expectWord w) fun _ => True := fun c _ _ hc h _ => by
  by_cases hat : c.token.kind = .word w false
  · obtain rfl := by simpa [run_expectWord hat] using h
    exact hc.here_le
  · simp [expectWord, hat, reject] at h

namespace Takes

variable {p : Parse α} {q : α → Parse Tree}

theorem reject : Takes text (reject : Parse Tree) := ⟨fun _ => .reject, .reject⟩

theorem ite {b : Prop} [Decidable b] {p q : Parse Tree} (hp : Takes text p) (hq : Takes text q) :
    Takes text (if b then p else q) := by
  split
  · exact hp
  · exact hq

/-- The token is taken behind what is read first. -/
theorem behind (hp : Quiet text p) (hq : ∀ a, Takes text (q a)) : Takes text (p >>= q) :=
  ⟨fun lo => .quiet hp fun a => (hq a).reads lo, .behind hp fun a => (hq a).moves⟩

/-- The token is taken at first. -/
theorem atOnce (hp : Moves text p fun _ => True) (hquiet : Quiet text p) (hq : ∀ a, Reads text (q a)) :
    Takes text (p >>= q) :=
  ⟨fun lo => .quiet hquiet fun a => hq a lo, .atOnce hp hquiet fun a => (hq a).quiet⟩

theorem advance {q : Unit → Parse Tree} (hq : Reads text (q ())) : Takes text (advance >>= q) :=
  atOnce moves_advance quiet_advance fun _ => hq

theorem expectPunct {mark : Punct} {q : Unit → Parse Tree} (hq : Reads text (q ())) :
    Takes text (expectPunct mark >>= q) := atOnce (moves_expectPunct mark) (quiet_expectPunct mark) fun _ => hq

theorem expectWord {w : String} {q : Unit → Parse Tree} (hq : Reads text (q ())) : Takes text (expectWord w >>= q) :=
  atOnce (moves_expectWord w) (quiet_expectWord w) fun _ => hq

/-- The reader goes on from the tree that was read first. -/
theorem read {p : Parse Tree} {q : Tree → Parse Tree} (hp : Takes text p)
    (hq : ∀ lo t, Gathers text lo [t] (q t) fun t => [t]) : Takes text (p >>= q) where
  reads lo := .read hp.reads (hq lo)
  moves c _ _ hc h _ := by
    obtain ⟨t, _, hfirst, h⟩ := run_bind_eq_some h
    obtain ⟨hmove, hread⟩ := hp.reads c.token.span.start hc (Nat.le_refl _) .nil hfirst
    exact Nat.le_trans (hp.moves hc hfirst trivial) (hq _ t hmove.ready hmove.here hread h).1.lastStop

/-- What is made of the text from the current token on. -/
theorem starts {q : Nat → Parse Tree} (hq : ∀ start, IsPlace text start → Starts text start (q start) fun t => [t]) :
    Takes text (here >>= q) where
  reads := .starts hq
  moves c _ _ hc h _ := by
    obtain ⟨start, c', hfirst, h⟩ := run_bind_eq_some h
    obtain ⟨rfl, rfl⟩ := by simpa using hfirst
    exact (hq _ hc.here hc rfl h).2.2

end Takes

/-! ### Loops -/

theorem quiet_iterate {step : α → Parse (Option α)} (h : ∀ a, Quiet text (step a)) (n : Nat) (a : α) :
    Quiet text (iterate step n a) := by
  induction n generalizing a with
  | zero => exact .reject
  | succ n ih =>
    refine (h a).bind fun found => ?_
    split
    · exact .pure a
    · exact ih _

@[simp] theorem quiet_loop {step : α → Parse (Option α)} (h : ∀ a, Quiet text (step a)) (a : α) :
    Quiet text (loop step a) := quiet_get.bind fun _ => quiet_iterate h _ a

@[simp] theorem quiet_many {item : Parse (Option α)} (h : Quiet text item) : Quiet text (many item) := by
  refine (quiet_loop (fun found => ?_) []).bind fun _ => .pure _
  refine h.bind fun next? => ?_
  split <;> simp

variable {made : α → List Tree}

/-- A step that goes on from what the steps before have made keeps doing so in a loop. -/
theorem Gathers.loop (made : α → List Tree) {step : α → Parse (Option α)}
    (h : ∀ a, Gathers text lo (made a) (step a) fun next? => next?.elim (made a) made) (a : α) :
    Gathers text lo (made a) (Parse.loop step a) made := by
  refine .quiet quiet_get fun c => ?_
  generalize c.size + 1 = n
  induction n generalizing a with
  | zero => exact .reject
  | succ n ih =>
    refine .seq (h a) fun next? => ?_
    cases next? with
    | none => exact .pure rfl
    | some b => exact ih b

/-- What every step keeps holds when a loop stops. -/
theorem loop_invariant {step : α → Parse (Option α)} (holds : α → Cursor → Prop)
    (hstop : ∀ a c c', holds a c → step a c = some (none, c') → holds a c')
    (hstep : ∀ a b c c', holds a c → step a c = some (some b, c') → holds b c') {a b : α} (h : holds a c)
    (hrun : Parse.loop step a c = some (b, c')) : holds b c' := by
  rw [Parse.loop, run_bind, run_get, Option.bind_some] at hrun
  generalize c.size + 1 = n at hrun
  induction n generalizing a c with
  | zero => simp [iterate, Parse.reject] at hrun
  | succ n ih =>
    obtain ⟨next?, c₁, hfirst, hrest⟩ := run_bind_eq_some hrun
    cases next? with
    | none =>
      obtain ⟨rfl, rfl⟩ := by simpa using hrest
      exact hstop a c _ h hfirst
    | some next => exact ih (hstep a next c c₁ h hfirst) hrest

theorem Gives.many {item : Parse (Option Tree)} (h : Gives text item Option.toList) :
    Gives text (many item) fun ts => ts := by
  intro lo
  refine .seq (Gathers.loop List.reverse (fun found => ?_) []) fun found => .pure rfl
  refine .bind h fun next? => ?_
  cases next? with
  | none => exact .pure (by simp)
  | some t => exact .pure (by simp)

end Rules

end LiveNotes.Script
