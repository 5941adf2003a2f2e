import LiveNotes.Proofs.Script.Grammar.Imports
import LiveNotes.Proofs.Script.Grammar.Programs
import LiveNotes.Proofs.Script.Grammar.Roots

/-! The statements of a module that are items of it, imports and exports, and where they stand. All others are read
from their first token up to their last one. -/

namespace LiveNotes.Script

open Parse Grammar

variable {text : List Char} {rec : Readers} {ctx : Context} {c c' : Cursor} {start : Nat} {t : Tree}

/-! ### Statements that are no items of a module -/

/-- What is read from `start` up to the last token and is no item of a module. -/
def IsInner (start : Nat) (t : Tree) (c : Cursor) : Prop := t.span = ⟨start, c.lastStop⟩ ∧ isModuleItem t = false

/-- The reader makes a statement from `start` on that is no item of a module. -/
def MakesInner (start : Nat) (p : Parse Tree) : Prop := Leads p (IsInner start)

/-- The reader makes a statement that starts where it does and is no item of a module. -/
def ReadsInner (text : List Char) (p : Parse Tree) : Prop := ∀ start, LeadsFrom text start p (IsInner start)

theorem makesInner_finish {label : Label} {ks : List Tree} (h : ∀ span, isModuleItem (.node label span ks) = false) :
    MakesInner start (finish label start ks) := Leads.finish fun _ => ⟨rfl, h _⟩

theorem ReadsInner.here {q : Nat → Parse Tree} (h : ∀ start, MakesInner start (q start)) :
    ReadsInner text (Parse.here >>= q) := fun start => LeadsFrom.here (.of_leads (h start))

theorem readsInner_block : ReadsInner text (block rec ctx) :=
  .here fun _ => .bind fun _ => .bind fun _ => .bind fun _ => makesInner_finish fun _ => rfl

theorem readsInner_ifStatement : ReadsInner text (ifStatement rec ctx) := by
  refine .here fun _ => .bind fun _ => .bind fun _ => .bind fun _ => .bind fun _ => .ite (.bind fun _ => ?_) ?_
  all_goals exact makesInner_finish fun _ => rfl

theorem makesInner_elementsRest (awaited : Bool) (init : Tree) :
    MakesInner start (elementsRest rec ctx start awaited init) :=
  .bind fun _ => .bind fun _ => .bind fun _ => .bind fun _ => makesInner_finish fun _ => rfl

theorem makesInner_keysRest (init : Tree) : MakesInner start (keysRest rec ctx start init) := by
  have hrest : MakesInner start (do
      let left ← loopTarget init
      let right ← expression rec ctx
      expectPunct .rightParen
      let body ← branch rec ctx
      finish .forIn start [left, right, body]) :=
    .bind fun _ => .bind fun _ => .bind fun _ => .bind fun _ => makesInner_finish fun _ => rfl
  unfold keysRest
  split
  · exact .bind fun _ => hrest
  · exact hrest

theorem makesInner_countingRest (init : Tree) : MakesInner start (countingRest rec ctx start init) := by
  have hrest : MakesInner start (do
      let inner := { ctx with inOperator := true }
      expectPunct .semicolon
      let test ← if ← atPunct .semicolon then holeHere else expression rec inner
      expectPunct .semicolon
      let update ← if ← atPunct .rightParen then holeHere else expression rec inner
      expectPunct .rightParen
      let body ← branch rec ctx
      finish .forLoop start [init, test, update, body]) := by
    have hend (test : Tree) : MakesInner start (do
        expectPunct .semicolon
        let update ← if ← atPunct .rightParen then holeHere else expression rec { ctx with inOperator := true }
        expectPunct .rightParen
        let body ← branch rec ctx
        finish .forLoop start [init, test, update, body]) := by
      refine .bind fun _ => .bind fun _ => .ite (.bind fun _ => ?_) (.bind fun _ => ?_)
      all_goals exact .bind fun _ => .bind fun _ => makesInner_finish fun _ => rfl
    exact .bind fun _ => .bind fun _ => .ite (.bind hend) (.bind hend)
  unfold countingRest
  dsimp only
  split
  · exact .bind fun _ => hrest
  · exact hrest

theorem readsInner_forStatement : ReadsInner text (forStatement rec ctx) := by
  refine .here fun start => .bind fun _ => .bind fun awaited => ?_
  have hrest : MakesInner start (do
      expectPunct .leftParen
      let init ← loopInit rec ctx awaited
      if !init.isHole && (← eatWord "of") then elementsRest rec ctx start awaited init
      else if awaited then reject
      else if !init.isHole && (← eatWord "in") then keysRest rec ctx start init
      else countingRest rec ctx start init) := by
    refine .bind fun _ => .bind fun init => .bind fun _ => .ite (makesInner_elementsRest _ _) (.ite .reject ?_)
    exact .bind fun _ => .ite (makesInner_keysRest _) (makesInner_countingRest _)
  exact .ite (.bind fun _ => hrest) hrest

theorem readsInner_whileStatement : ReadsInner text (whileStatement rec ctx) :=
  .here fun _ => .bind fun _ => .bind fun _ => .bind fun _ => makesInner_finish fun _ => rfl

theorem readsInner_doStatement : ReadsInner text (doStatement rec ctx) :=
  .here fun _ => .bind fun _ => .bind fun _ => .bind fun _ => .bind fun _ => .bind fun _ =>
    makesInner_finish fun _ => rfl

theorem readsInner_withStatement : ReadsInner text (withStatement rec ctx) :=
  .here fun _ => .bind fun _ => .bind fun _ => .bind fun _ => makesInner_finish fun _ => rfl

theorem readsInner_jumpStatement {label : Option String → Label}
    (h : ∀ name span, isModuleItem (.node (label name) span []) = false) : ReadsInner text (jumpStatement label) :=
  .here fun _ => .bind fun _ => .bind fun name => .bind fun _ => makesInner_finish (h name)

theorem readsInner_returnStatement : ReadsInner text (returnStatement rec ctx) := by
  refine .here fun _ => .bind fun _ => .bind fun _ => .bind fun _ => .ite (.bind fun _ => ?_) (.bind fun _ => ?_)
  all_goals exact .bind fun _ => makesInner_finish fun _ => rfl

theorem readsInner_throwStatement : ReadsInner text (throwStatement rec ctx) := by
  refine .here fun _ => .bind fun _ => .bind fun _ => .ite (.bind fun _ => ?_) ?_
  all_goals exact .bind fun _ => .bind fun _ => makesInner_finish fun _ => rfl

theorem readsInner_debuggerStatement : ReadsInner text debuggerStatement :=
  .here fun _ => .bind fun _ => .bind fun _ => makesInner_finish fun _ => rfl

theorem readsInner_switchStatement : ReadsInner text (switchStatement rec ctx) :=
  .here fun _ => .bind fun _ => .bind fun _ => .bind fun _ => .bind fun _ => .bind fun _ =>
    makesInner_finish fun _ => rfl

theorem readsInner_tryStatement : ReadsInner text (tryStatement rec ctx) := by
  refine .here fun _ => .bind fun _ => .bind fun _ => .bind fun _ => .ite (.bind fun _ => ?_) (.bind fun _ => ?_)
  all_goals
    refine .bind fun _ => .ite (.bind fun _ => ?_) (.bind fun _ => ?_)
    all_goals exact .ite (.bind fun _ => makesInner_finish fun _ => rfl) (makesInner_finish fun _ => rfl)

theorem makesInner_labeled (e : Tree) (label? : Option String) : MakesInner start (do
    match label? with
    | some name =>
      let body ← rec (.statement ctx true)
      finish (.labeled name) start [body]
    | none =>
      endStatement
      finish .expressionStatement start [e]) := by
  cases label? with
  | some name => exact .bind fun _ => makesInner_finish fun _ => rfl
  | none => exact .bind fun _ => makesInner_finish fun _ => rfl

theorem readsInner_expressionStatement : ReadsInner text (expressionStatement rec ctx) := by
  refine .here fun start => .bind fun e => ?_
  split
  · exact .bind fun _ => .ite (.bind (makesInner_labeled e)) (.bind (makesInner_labeled e))
  · exact .bind (makesInner_labeled e)

theorem makesInner_variableStatement (kind : VariableKind) :
    MakesInner start (variableStatement rec ctx start kind) := by
  have hlist : Leads (variableList rec ctx start kind) fun t _ => isModuleItem t = false :=
    .bind fun _ => .bind fun _ => .finish fun _ => rfl
  exact .seq hlist fun t ht => .bind fun _ => .bind fun _ => makesInner_finish fun _ => ht

theorem readsInner_lexicalStatement (alone : Bool) (kind : VariableKind) :
    ReadsInner text (lexicalStatement rec ctx alone kind) :=
  .here fun _ => .bind fun _ => .bind fun _ => makesInner_variableStatement _

theorem readsInner_letStatement (alone : Bool) : ReadsInner text (letStatement rec ctx alone) := by
  refine fun start => .here (.stay stays_nextToken fun _ => .ite ?_ (.ite ?_ (.ite ?_ ?_)))
  · exact .of_leads (.bind fun _ => .bind fun _ => makesInner_finish fun _ => rfl)
  · exact .of_leads (.bind fun _ => makesInner_finish fun _ => rfl)
  · exact .of_leads (.bind fun _ => .bind fun _ => .bind fun _ => makesInner_finish fun _ => rfl)
  · exact readsInner_lexicalStatement alone _ start

theorem makesInner_functionDeclaration (isAsync nameless : Bool) :
    MakesInner start (functionDeclaration rec ctx start isAsync nameless) := by
  refine .bind fun _ => .bind fun _ => .bind fun _ => .bind fun _ => .ite (.bind fun _ => ?_) (.bind fun _ => ?_)
  all_goals
    refine .bind fun rest => ?_
    dsimp only
    split
    · exact makesInner_finish fun _ => rfl
    · exact makesInner_finish fun _ => rfl

theorem makesInner_classTree (ds : Tree) : MakesInner start (classTree rec ctx .classDecl start ds) :=
  (makes_classTree .classDecl ds).imp fun t _ ht => ⟨ht.1, by rw [isModuleItem, ht.2]⟩

theorem makesInner_functionStatement (isAsync alone : Bool) :
    MakesInner start (functionStatement rec ctx start isAsync alone) :=
  .bind fun _ => .bind fun _ => makesInner_functionDeclaration isAsync false

/-! ### Declarations -/

theorem quiet_valueDeclaration? (hrec : ReadsGoals text rec) (ctx : Context) (h : DeclarationHead) (w : String) :
    Quiet text (valueDeclaration? rec ctx h w) := by
  have hvariables (start : Nat) (kind : VariableKind) : Quiet text (do
      checkModifiers (· == .declare) h.modifiers
      advance
      return some (← variableStatement rec ctx start kind)) :=
    (quiet_checkModifiers _ _).bind fun _ => quiet_advance.bind fun _ =>
      (reads_variableStatement hrec ctx start kind).quiet.bind fun _ => .pure _
  refine quiet_here.bind fun start => ?_
  dsimp only
  split
  iterate 3
    refine quiet_nextToken.bind fun _ => .types ?_
    simpa using hvariables start _
  · exact (quiet_checkModifiers _ _).bind fun _ => (Gives.classTree hrec _ _ _ _).1.quiet.bind fun _ => .pure _
  · refine (quiet_checkModifiers _ _).bind fun _ => ?_
    exact (takes_functionDeclaration hrec ctx start false false).quiet.bind fun _ => .pure _
  · refine quiet_nextToken.bind fun next => .ite (Quiet.reject.bind fun _ => ?_) ?_
    all_goals
      refine (quiet_checkModifiers _ _).bind fun _ => quiet_advance.bind fun _ => ?_
      exact (takes_functionDeclaration hrec ctx start true false).quiet.bind fun _ => .pure _
  · exact .pure _

theorem quiet_declaration (hrec : ReadsGoals text rec) (h : DeclarationHead) :
    Quiet text (declaration rec ctx h) := by
  refine quiet_kind.bind fun k => ?_
  split
  · refine (quiet_flawIf _).bind fun _ => (quiet_valueDeclaration? hrec _ h _).bind fun t? => ?_
    cases t? with
    | some t => exact (Quiet.pure t).bind fun _ => .pure _
    | none => exact Quiet.bind (.types .reject) fun _ => .pure _
  · exact .reject

/-- A declaration from `start` up to the last token, or a class from `first`, where its decorators `ds` may stand.
Every call in it that is in no decorator stands behind `start`. -/
structure Declared (start first : Nat) (ds t : Tree) (c : Cursor) : Prop where
  passed : start ≤ c.lastStop
  placed : IsInner start t c ∧ (∀ m ∈ t.calls, start ≤ m.start ∧ m.stop ≤ c.lastStop) ∨
    IsInner first t c ∧ ∀ m ∈ t.calls, m ∈ ds.calls ∨ start ≤ m.start ∧ m.stop ≤ c.lastStop

theorem Declared.isInner {first : Nat} {ds : Tree} (h : Declared start first ds t c) :
    IsInner start t c ∨ IsInner first t c := h.placed.imp And.left And.left

/-- What the reader finds at `start` or behind it is a declaration from there on. -/
def DeclaresFrom (text : List Char) (start first : Nat) (ds : Tree) (p : Parse (Option Tree)) : Prop :=
  ∀ ⦃c t c'⦄, Ready text c → start ≤ c.token.span.start → p c = some (some t, c') → Declared start first ds t c'

namespace DeclaresFrom

variable {α : Type} {p : Parse α} {q : α → Parse (Option Tree)} {first : Nat} {ds : Tree}

theorem quiet (hp : Quiet text p) (hq : ∀ a, DeclaresFrom text start first ds (q a)) :
    DeclaresFrom text start first ds (p >>= q) := fun _ _ _ hc hstart h => by
  obtain ⟨a, _, hfirst, h⟩ := run_bind_eq_some h
  have hmove := hp hc hfirst
  exact hq a hmove.ready (Nat.le_trans hstart hmove.here) h

theorem types {q : Bool → Parse (Option Tree)} (hq : DeclaresFrom text start first ds (q false)) :
    DeclaresFrom text start first ds (typesAllowed >>= q) := fun _ _ _ hc hstart h => by
  obtain ⟨_, _, htypes, h⟩ := run_bind_eq_some h
  obtain ⟨rfl, rfl⟩ := by simpa [hc.plain] using htypes
  exact hq hc hstart h

theorem ite {b : Prop} [Decidable b] {p q : Parse (Option Tree)} (hp : DeclaresFrom text start first ds p)
    (hq : DeclaresFrom text start first ds q) : DeclaresFrom text start first ds (if b then p else q) := by
  split
  · exact hp
  · exact hq

theorem none : DeclaresFrom text start first ds (pure none) := fun _ _ _ _ _ h => by simp at h

theorem rejectBind {q : Unit → Parse (Option Tree)} : DeclaresFrom text start first ds (Parse.reject >>= q) :=
  fun _ _ _ _ _ h => by simp [Parse.reject] at h

/-- A declaration that says itself that it starts at `start`. -/
theorem of_takes {p : Parse Tree} (hp : Takes text p) (h : MakesInner start p) :
    DeclaresFrom text start first ds (do return some (← p)) := fun c t c' hc hstart hsome => by
  obtain ⟨_, _, hrun, hlast⟩ := run_bind_eq_some hsome
  obtain ⟨rfl, rfl⟩ := by simpa using hlast
  obtain ⟨-, hspaced⟩ := hp.reads c.token.span.start hc (Nat.le_refl _) .nil hrun
  refine ⟨Nat.le_trans hstart (hp.moves hc hrun trivial), .inl ⟨h hrun, fun m hm => ?_⟩⟩
  have hlies := hspaced.inside m (by rwa [callsAll_singleton])
  exact ⟨Nat.le_trans hstart hlies.lo_le, hlies.le_hi⟩

theorem advance {p : Parse Tree} (hp : Reads text p) (h : MakesInner start p) : DeclaresFrom text start first ds (do
    Parse.advance
    return some (← p)) := by
  simpa using (of_takes (.advance hp) (.bind fun _ => h) : DeclaresFrom text start first ds (do
    let t ← (do Parse.advance; p)
    return some t))

theorem of_class (hrec : ReadsGoals text rec) : DeclaresFrom text start first ds (do
    return some (← classTree rec ctx .classDecl first ds)) := fun c t c' hc hstart hsome => by
  obtain ⟨_, _, hrun, hlast⟩ := run_bind_eq_some hsome
  obtain ⟨rfl, rfl⟩ := by simpa using hlast
  obtain ⟨hparts, hmoves⟩ := Gives.classTree hrec ctx .classDecl first ds
  obtain ⟨-, hspaced⟩ := hparts c.token.span.start hc (Nat.le_refl _) .nil hrun
  refine ⟨Nat.le_trans hstart (hmoves hc hrun trivial), .inr ⟨makesInner_classTree ds hrun, fun m hm => ?_⟩⟩
  obtain ⟨name, super, body, rfl⟩ := exists_classTree hrun
  have hcalls : m ∈ Tree.callsAll [name, super, body] ∨ m ∈ ds.calls := by
    rw [calls_inner rfl] at hm
    simpa [Tree.callsAll, or_assoc] using hm
  refine hcalls.symm.imp_right fun hm => ?_
  have hlies := hspaced.inside m hm
  exact ⟨Nat.le_trans hstart hlies.lo_le, hlies.le_hi⟩

end DeclaresFrom

theorem declared_valueDeclaration? (hrec : ReadsGoals text rec) {h : DeclarationHead} {w : String} (hc : Ready text c)
    (hrun : valueDeclaration? rec ctx h w c = some (some t, c')) :
    Declared c.token.span.start h.start h.decorators t c' := by
  have hvariables (start : Nat) (kind : VariableKind) : DeclaresFrom text start h.start h.decorators (do
      checkModifiers (· == .declare) h.modifiers
      advance
      return some (← variableStatement rec ctx start kind)) :=
    .quiet (quiet_checkModifiers _ _) fun _ =>
      .advance (reads_variableStatement hrec ctx start kind) (makesInner_variableStatement kind)
  obtain ⟨start, _, hhere, hrun⟩ := run_bind_eq_some hrun
  obtain ⟨rfl, rfl⟩ := by simpa using hhere
  refine (?_ : DeclaresFrom text c.token.span.start h.start h.decorators _) hc (Nat.le_refl _) hrun
  dsimp only
  split
  iterate 3
    refine .quiet quiet_nextToken fun _ => .types ?_
    simpa using hvariables _ _
  · exact .quiet (quiet_checkModifiers _ _) fun _ => .of_class hrec
  · refine .quiet (quiet_checkModifiers _ _) fun _ => ?_
    exact .of_takes (takes_functionDeclaration hrec ctx _ false false) (makesInner_functionDeclaration false false)
  · refine .quiet quiet_nextToken fun next => .ite .rejectBind (.quiet (quiet_checkModifiers _ _) fun _ => ?_)
    exact .advance (takes_functionDeclaration hrec ctx _ true false).reads (makesInner_functionDeclaration true false)
  · exact .none

theorem declared_declaration (hrec : ReadsGoals text rec) {h : DeclarationHead} (hc : Ready text c)
    (hrun : declaration rec ctx h c = some (t, c')) : Declared c.token.span.start h.start h.decorators t c' := by
  obtain ⟨k, _, hkind, hrun⟩ := run_bind_eq_some hrun
  obtain ⟨rfl, rfl⟩ := by simpa using hkind
  obtain ⟨w, hword⟩ : ∃ w, c.token.kind = .word w false := by
    by_contra hne
    cases hk : c.token.kind with
    | word w escaped =>
      cases escaped with
      | false => exact hne ⟨w, hk⟩
      | true => simp [hk, reject] at hrun
    | _ => simp [hk, reject] at hrun
  simp only [hword] at hrun
  obtain ⟨_, c₁, hflaw, hrun⟩ := run_bind_eq_some hrun
  obtain ⟨hc₁, hsame⟩ := Stays.flawIf _ hc hflaw
  obtain ⟨t?, c₂, hvalue, hrun⟩ := run_bind_eq_some hrun
  have hc₂ := (quiet_valueDeclaration? hrec _ _ _ hc₁ hvalue).ready
  cases t? with
  | some t₀ =>
    obtain ⟨rfl, rfl⟩ := by simpa using hrun
    have hfound := declared_valueDeclaration? hrec hc₁ hvalue
    rw [hsame] at hfound
    split
    · refine ⟨hfound.passed, .inr ⟨⟨?_, rfl⟩, fun _ hm => absurd hm List.not_mem_nil⟩⟩
      rcases hfound.isInner with h | h <;> rw [Tree.span_node, h.1]
    · exact hfound
  | none =>
    obtain ⟨t₀, c₃, htyped, _⟩ := run_bind_eq_some hrun
    obtain ⟨_, _, htypes, htyped⟩ := run_bind_eq_some htyped
    obtain ⟨rfl, rfl⟩ := by simpa [hc₂.plain] using htypes
    simp [reject] at htyped

/-! ### Where the items of a module stand -/

/-- Whether a node with the label names another module or lists exports. -/
def Label.isLink : Label → Bool
  | .importDecl _ _ _ _ | .exportList _ _ | .exportAll _ _ _ => true
  | _ => false

theorem Label.isLink_of_isImport {label : Label} (h : label.isImport = true) :
    label.isLink = true ∧ label.isLeaf = true := by
  unfold isImport at h
  split at h
  · exact ⟨rfl, rfl⟩
  · contradiction

/-- What is exported, up to byte `stop` and behind the word `export` at `start`. No call reaches over its start. -/
structure Uncut (start stop : Nat) (d : Tree) : Prop where
  le : d.span.start ≤ stop
  calls : ∀ m ∈ d.calls, m.stop ≤ start ∨ d.span.start ≤ m.start ∧ m.stop ≤ stop

theorem Uncut.weaken {stop stop' : Nat} {d : Tree} (h : Uncut start stop d) (hle : stop ≤ stop') : Uncut start stop' d :=
  ⟨Nat.le_trans h.le hle, fun m hm => (h.calls m hm).imp_right fun h => ⟨h.1, Nat.le_trans h.2 hle⟩⟩

/-- Notes about effects change no calls. -/
theorem Uncut.keep {stop : Nat} {d d' : Tree} (h : Uncut start stop d) (hspan : d'.span.start = d.span.start)
    (hcalls : d'.calls ⊆ d.calls) : Uncut start stop d' :=
  ⟨hspan ▸ h.le, fun m hm => hspan ▸ h.calls m (hcalls hm)⟩

/-- A statement between `lo` and `hi`. What it exports as a whole stands behind the words that say so, over which no
call reaches, and no call stands in it if it names another module. -/
structure Placed (text : List Char) (lo hi : Nat) (t : Tree) : Prop where
  start : lo ≤ t.span.start
  stop : t.span.stop ≤ hi
  item : isModuleItem t = true → t.span.Lies text lo hi
  front : t.label = .exportDecl ∨ t.label = .exportDefault →
    ∀ d ∈ t.kids, Span.Lies text lo hi ⟨t.span.start, d.span.start⟩ ∧ Uncut t.span.start t.span.stop d
  link : t.label.isLink = true → t.calls = []

/-- Behind its first word, which is not empty, a reader has passed a part of the text. -/
theorem Onward.lies (h : Onward text c c') (hstart : IsPlace text start) (hlt : start < c.lastStop) :
    Span.Lies text start c'.token.span.start ⟨start, c'.lastStop⟩ :=
  ⟨hstart, h.ready.lastStop, Nat.le_refl _, Nat.lt_of_lt_of_le hlt h.lastStop, h.ready.lastStop_le⟩

/-- As `Onward.lies`, up to the token where the reader stands. -/
theorem Onward.lies_here (h : Onward text c c') (h' : Onward text c' c'') (hstart : IsPlace text start)
    (hlt : start < c.lastStop) : Span.Lies text start c''.token.span.start ⟨start, c'.token.span.start⟩ := by
  refine ⟨hstart, h.ready.here, Nat.le_refl _, Nat.lt_of_lt_of_le hlt ?_, h'.here⟩
  exact Nat.le_trans h.lastStop h.ready.lastStop_le

theorem Placed.of_isInner {lo : Nat} (h : IsInner start t c) (hc : Ready text c) (hlo : lo ≤ start) :
    Placed text lo c.token.span.start t where
  start := by
    rw [h.1]
    exact hlo
  stop := by
    rw [h.1]
    exact hc.lastStop_le
  item hitem := by
    rw [h.2] at hitem
    contradiction
  front hlabel := by
    have hinner := h.2
    rcases hlabel with hlabel | hlabel <;> simp [isModuleItem, hlabel] at hinner
  link hlink := by
    have hinner := h.2
    cases hlabel : t.label <;> simp_all [isModuleItem, Label.isLink]

theorem Placed.weaken {lo lo' hi hi' : Nat} (h : Placed text lo hi t) (hlo : lo' ≤ lo) (hhi : hi ≤ hi') :
    Placed text lo' hi' t :=
  ⟨Nat.le_trans hlo h.start, Nat.le_trans h.stop hhi, fun hitem => (h.item hitem).weaken hlo hhi,
    fun hlabel d hd => (h.front hlabel d hd).imp_left (·.weaken hlo hhi), h.link⟩

/-- What names another module is placed by its span alone. -/
theorem Placed.of_link {hi : Nat} (hlies : t.span.Lies text start hi) (hlink : t.label.isLink = true)
    (hcalls : t.calls = []) : Placed text start hi t where
  start := hlies.lo_le
  stop := hlies.le_hi
  item _ := hlies
  front hlabel := by
    rcases hlabel with hlabel | hlabel <;> simp [hlabel, Label.isLink] at hlink
  link _ := hcalls

/-- What is exported starts behind the words that export it. -/
theorem Placed.of_export {hi stop : Nat} {label : Label} {d : Tree} (hlink : label.isLink = false)
    (hlies : Span.Lies text start hi ⟨start, stop⟩) (hfront : Span.Lies text start hi ⟨start, d.span.start⟩)
    (huncut : Uncut start stop d) :
    Placed text start hi (.node label ⟨start, stop⟩ [d]) where
  start := Nat.le_refl _
  stop := hlies.le_hi
  item _ := hlies
  front _ k hk := by
    obtain rfl := List.mem_singleton.1 hk
    exact ⟨hfront, huncut⟩
  link h := by
    rw [Tree.label_node, hlink] at h
    contradiction

/-- A list of exports, in which no call stands. -/
def IsList (t : Tree) : Prop := t.label.isLink = true ∧ t.label.isImport = false ∧ t.calls = []

theorem makes_exportList (typeOnly : Bool) :
    Makes start (exportList start typeOnly) IsList := by
  have hname : Yields (exportName typeOnly) fun t => t.calls = [] := .bind fun _ => .bind fun _ => .finish fun _ => rfl
  refine .bind fun _ => .seq (Yields.commaList hname _) fun names hnames => .bind fun _ => ?_
  have hend (source? : Option String) {attributes : List Tree} (hattributes : ∀ t ∈ attributes, t.calls = []) :
      Makes start (do
        flawIf (source?.isNone && !(names.all isLocalName))
        endStatement
        finish (.exportList source? typeOnly) start (names ++ attributes)) IsList := by
    refine .bind fun _ => .bind fun _ => Makes.finish fun span => ⟨rfl, rfl, ?_⟩
    rw [calls_inner rfl, callsAll_eq_flatMap, List.flatMap_eq_nil_iff]
    exact List.forall_mem_append.2 ⟨hnames, hattributes⟩
  have hrest (source? : Option String) : Makes start (do
      let attributes ← if source?.isSome then importAttributes else pure []
      flawIf (source?.isNone && !(names.all isLocalName))
      endStatement
      finish (.exportList source? typeOnly) start (names ++ attributes)) IsList := by
    refine .ite (.seq yields_importAttributes fun attributes hparts => hend source? fun t ht => ?_) ?_
    · exact calls_importPart (hparts t ht)
    · exact .seq (.pure fun _ => rfl : Leads (pure []) fun found _ => found = []) fun found hfound =>
        hend source? (by simp [hfound])
  refine .bind fun _ => .ite (.bind fun k => ?_) (.bind hrest)
  split
  · exact .bind fun _ => .bind hrest
  · exact .bind hrest

theorem makes_exportAll (typeOnly : Bool) :
    Makes start (exportAll start typeOnly) IsList := by
  refine .bind fun _ => .bind fun _ => .ite (.bind fun _ => ?_) (.bind fun _ => ?_)
  all_goals
    refine .bind fun _ => .bind fun _ => .seq yields_importAttributes fun attributes hparts => .bind fun _ => ?_
    refine Makes.finish fun span => ⟨rfl, rfl, ?_⟩
    rw [calls_inner rfl, callsAll_eq_flatMap, List.flatMap_eq_nil_iff]
    exact fun t ht => calls_importPart (hparts t ht)

theorem quiet_laterDecorators (hrec : ReadsGoals text rec) (ds : Tree) : Quiet text (laterDecorators rec ctx ds) :=
  (quiet_atPunct _).bind fun _ => .ite ((quiet_flawIf _).bind fun _ => (reads_decorators hrec ctx).quiet) (.pure _)

theorem quiet_defaultDeclaration? (hrec : ReadsGoals text rec) (first : Nat) (ds : Tree) (w : String) :
    Quiet text (defaultDeclaration? rec ctx first ds w) := by
  have hclass : Quiet text (do return some (← classTree rec ctx .classDecl first ds)) :=
    (Gives.classTree hrec _ _ _ _).1.quiet.bind fun _ => .pure _
  have hfunction (start : Nat) (isAsync : Bool) :
      Quiet text (do return some (← functionDeclaration rec ctx start isAsync true)) :=
    (takes_functionDeclaration hrec ctx start isAsync true).quiet.bind fun _ => .pure _
  refine quiet_here.bind fun start => .types (quiet_nextToken.bind fun next => ?_)
  split
  · exact hclass
  · exact hfunction start false
  · exact .ite (quiet_advance.bind fun _ => hfunction start true) (.pure _)
  iterate 3 exact .pure _

theorem declared_defaultDeclaration? (hrec : ReadsGoals text rec) {first : Nat} {ds : Tree} {w : String}
    (hc : Ready text c) (hrun : defaultDeclaration? rec ctx first ds w c = some (some t, c')) :
    Declared c.token.span.start first ds t c' := by
  obtain ⟨start, _, hhere, hrun⟩ := run_bind_eq_some hrun
  obtain ⟨rfl, rfl⟩ := by simpa using hhere
  refine (?_ : DeclaresFrom text c.token.span.start first ds _) hc (Nat.le_refl _) hrun
  have hfunction (isAsync : Bool) := takes_functionDeclaration hrec ctx c.token.span.start isAsync true
  refine .types (.quiet quiet_nextToken fun next => ?_)
  split
  · exact .of_class hrec
  · exact .of_takes (hfunction false) (makesInner_functionDeclaration false true)
  · exact .ite (.advance (hfunction true).reads (makesInner_functionDeclaration true true)) .none
  iterate 3 exact .none

/-- Decorators stand in front of the word `export`, or else from `first` on. -/
def Flanks (start first : Nat) (ds : Tree) (stop : Nat) : Prop :=
  ∀ m ∈ ds.calls, m.stop ≤ start ∨ first ≤ m.start ∧ m.stop ≤ stop

theorem Flanks.weaken {first stop stop' : Nat} {ds : Tree} (h : Flanks start first ds stop) (hle : stop ≤ stop') :
    Flanks start first ds stop' := fun m hm => (h m hm).imp_right fun h => ⟨h.1, Nat.le_trans h.2 hle⟩

theorem Declared.uncut {from_ first : Nat} {ds d : Tree} (h : Declared from_ first ds d c) (hfirst : first ≤ from_)
    (hds : Flanks start first ds c.lastStop) : Uncut start c.lastStop d := by
  rcases h.placed with ⟨⟨hspan, -⟩, hcalls⟩ | ⟨⟨hspan, -⟩, hcalls⟩
  · refine ⟨?_, fun m hm => .inr ?_⟩
    all_goals rw [hspan]
    · exact h.passed
    · exact hcalls m hm
  · refine ⟨?_, fun m hm => ?_⟩
    all_goals rw [hspan]
    · exact Nat.le_trans hfirst h.passed
    · exact (hcalls m hm).elim (hds m) fun h => .inr ⟨Nat.le_trans hfirst h.1, h.2⟩

/-- Where decorators may stand behind the word `export`, nothing else does. -/
theorem flanks_laterDecorators (hrec : ReadsGoals text rec) {ds ds' : Tree} (hc : Ready text c)
    (hds : ∀ m ∈ ds.calls, m.stop ≤ start) (h : laterDecorators rec ctx ds c = some (ds', c')) :
    Flanks start c.token.span.start ds' c'.lastStop := by
  obtain ⟨_, _, hat, h⟩ := run_bind_eq_some h
  obtain ⟨rfl, rfl⟩ := by simpa using hat
  split at h
  · obtain ⟨_, c₁, hflaw, h⟩ := run_bind_eq_some h
    have hmove := quiet_flawIf _ hc hflaw
    obtain ⟨-, hspaced⟩ := reads_decorators hrec ctx _ hmove.ready hmove.here .nil h
    intro m hm
    have hlies := hspaced.inside m (by rwa [callsAll_singleton])
    exact .inr ⟨hlies.lo_le, hlies.le_hi⟩
  · obtain ⟨rfl, rfl⟩ := by simpa using h
    exact fun m hm => .inl (hds m hm)

/-- The reader has passed the word at `start` that says that something is exported, and makes a statement. -/
def Exports (text : List Char) (start : Nat) (p : Parse Tree) : Prop :=
  ∀ ⦃c t c'⦄, Ready text c → IsPlace text start → start < c.lastStop → p c = some (t, c') →
    Placed text start c'.token.span.start t ∧ t.label.isImport = false

namespace Exports

variable {α : Type} {p : Parse α} {q : α → Parse Tree}

theorem quiet (hp : Quiet text p) (hq : ∀ a, Exports text start (q a)) : Exports text start (p >>= q) :=
  fun _ _ _ hc hstart hlt h => by
    obtain ⟨a, c₁, hfirst, hrest⟩ := run_bind_eq_some h
    have hmove := hp hc hfirst
    exact hq a hmove.ready hstart (Nat.lt_of_lt_of_le hlt hmove.lastStop) hrest

theorem reject : Exports text start Parse.reject := fun _ _ _ _ _ _ h => by simp [Parse.reject] at h

theorem of_list {p : Parse Tree} (hp : Quiet text p) (h : Makes start p IsList) : Exports text start p :=
  fun _ _ _ hc hstart hlt hrun => by
    obtain ⟨hspan, hlink, himport, hcalls⟩ := h hrun
    have hlies := (hp hc hrun).lies hstart hlt
    exact ⟨.of_link (hspan ▸ hlies) hlink hcalls, himport⟩

/-- The rest of an export keeps what was exported. -/
theorem keep {p : Parse Tree} {q : Tree → Parse Tree} (hp : Exports text start p) (hquiet : Quiet text p)
    (hq : ∀ t, Quiet text (q t)) (hkeep : ∀ t, Yields (q t) (· = t)) : Exports text start (p >>= q) :=
  fun _ _ _ hc hstart hlt h => by
    obtain ⟨t, c₁, hfirst, hrest⟩ := run_bind_eq_some h
    obtain rfl := hkeep t hrest
    obtain ⟨hplaced, himport⟩ := hp hc hstart hlt hfirst
    exact ⟨hplaced.weaken (Nat.le_refl _) (hq _ (hquiet hc hfirst).ready hrest).here, himport⟩

end Exports

/-- The readers of nested expressions start at the token that they take first. -/
structure Assigns (text : List Char) (rec : Readers) : Prop where
  begins : ∀ ctx start, Begins text start (rec (.assignment ctx))
  takes : ∀ ctx, Takes text (rec (.assignment ctx))

/-- What stands in front of a declaration where it is exported. -/
theorem Declared.front {c₁ : Cursor} {ds d : Tree} (h : Declared c₁.token.span.start c.token.span.start ds d c')
    (hc : Ready text c) (hmove : Onward text c c₁) (hlast : Onward text c₁ c') (hstart : IsPlace text start)
    (hlt : start < c.lastStop) : Span.Lies text start c'.token.span.start ⟨start, d.span.start⟩ := by
  rcases h.isInner with ⟨hspan, -⟩ | ⟨hspan, -⟩
  all_goals rw [hspan]
  · exact hmove.lies_here hlast hstart hlt
  · exact (Onward.refl hc).lies_here (hmove.trans hlast) hstart hlt

/-- The end of an export of something that starts behind the words for it. -/
theorem placed_defaultEnd {value ds : Tree} {isPure : Bool} (hc : Ready text c) (hstart : IsPlace text start)
    (hlt : start < c.lastStop) (hfront : Span.Lies text start c.token.span.start ⟨start, value.span.start⟩)
    (huncut : Uncut start c.lastStop value) (h : (do
      flawIf (!ds.isHole && value.label != .classDecl)
      finish .exportDefault start [if isPure then markPureFunction value else value] : Parse Tree) c = some (t, c')) :
    Placed text start c'.token.span.start t ∧ t.label.isImport = false := by
  obtain ⟨_, c₁, hflaw, h⟩ := run_bind_eq_some h
  obtain ⟨rfl, rfl⟩ := by simpa using h
  have hend := quiet_flawIf _ hc hflaw
  have hkeeps : Keeps text value (markPureFunction value) := markPureFunction_keeps value
  have hspan : (if isPure then markPureFunction value else value).span.start = value.span.start := by
    split
    · rw [span_markPureFunction]
    · rfl
  have hcalls : (if isPure then markPureFunction value else value).calls ⊆ value.calls := by
    split
    · exact hkeeps.calls.subset
    · exact List.Subset.refl _
  refine ⟨.of_export rfl (hend.lies hstart hlt) ?_ ((huncut.weaken hend.lastStop).keep hspan hcalls), rfl⟩
  rw [hspan]
  exact hfront.weaken (Nat.le_refl _) hend.here

/-- What a module exports by default: a declaration, or else an expression. -/
theorem placed_defaultValue (hassign : Assigns text rec) {ds : Tree} {isPure : Bool} (hc : Ready text c)
    (hstart : IsPlace text start) (hlt : start < c.lastStop) (declared? : Option Tree)
    (hdeclared : ∀ d ∈ declared?, Span.Lies text start c.token.span.start ⟨start, d.span.start⟩ ∧
      Uncut start c.lastStop d) (h : (do
      let value ← match declared? with
        | some t => pure t
        | none =>
          let e ← rec (.assignment ctx)
          endStatement
          pure e
      flawIf (!ds.isHole && value.label != .classDecl)
      finish .exportDefault start [if isPure then markPureFunction value else value] : Parse Tree) c = some (t, c')) :
    Placed text start c'.token.span.start t ∧ t.label.isImport = false := by
  cases declared? with
  | some value =>
    obtain ⟨hfront, huncut⟩ := hdeclared value rfl
    exact placed_defaultEnd hc hstart hlt hfront huncut h
  | none =>
    obtain ⟨e, c₁, hassigned, h⟩ := run_bind_eq_some h
    obtain ⟨_, c₂, hsemicolon, h⟩ := run_bind_eq_some h
    obtain ⟨hstep, hspaced⟩ := (hassign.takes ctx).reads c.token.span.start hc (Nat.le_refl _) .nil hassigned
    have hend := quiet_endStatement hstep.ready hsemicolon
    have hmove := hstep.trans hend
    have hbegins : e.span.start = c.token.span.start := hassign.begins ctx _ hc rfl hassigned
    refine placed_defaultEnd hmove.ready hstart (Nat.lt_of_lt_of_le hlt hmove.lastStop) ?_
      (Uncut.weaken ⟨?_, fun m hm => .inr ?_⟩ hend.lastStop) h
    all_goals rw [hbegins]
    · exact (Onward.refl hc).lies_here hmove hstart hlt
    · exact (hassign.takes ctx).moves hc hassigned trivial
    · have hlies := hspaced.inside m (by rwa [callsAll_singleton])
      exact ⟨hlies.lo_le, hlies.le_hi⟩

/-- What a module exports by default stands behind the words in front of it. -/
theorem exports_exportDefault (hrec : ReadsGoals text rec) (hassign : Assigns text rec) {ds : Tree}
    (hds : ∀ m ∈ ds.calls, m.stop ≤ start) : Exports text start (exportDefault rec ctx start ds) := by
  refine .quiet (quiet_expectWord _) fun _ => .quiet quiet_token fun s => ?_
  intro c t c' hc hstart hlt h
  obtain ⟨first, _, hhere, h⟩ := run_bind_eq_some h
  obtain ⟨rfl, rfl⟩ := by simpa using hhere
  obtain ⟨ds', c₁, hlater, h⟩ := run_bind_eq_some h
  have hflanks := flanks_laterDecorators hrec hc hds hlater
  have hmove := quiet_laterDecorators hrec ds hc hlater
  have hlt₁ := Nat.lt_of_lt_of_le hlt hmove.lastStop
  obtain ⟨k, _, hkind, h⟩ := run_bind_eq_some h
  obtain ⟨rfl, rfl⟩ := by simpa using hkind
  cases hk : c₁.token.kind with
  | word w escaped =>
    cases escaped with
    | false =>
      simp only [hk] at h
      obtain ⟨declared?, c₂, hdeclared, h⟩ := run_bind_eq_some h
      have hlast := quiet_defaultDeclaration? hrec _ _ _ hmove.ready hdeclared
      refine placed_defaultValue hassign hlast.ready hstart (Nat.lt_of_lt_of_le hlt₁ hlast.lastStop) declared? ?_ h
      rintro d rfl
      have hfound := declared_defaultDeclaration? hrec hmove.ready hdeclared
      exact ⟨hfound.front hc hmove hlast hstart hlt, hfound.uncut hmove.here (hflanks.weaken hlast.lastStop)⟩
    | true =>
      simp only [hk] at h
      exact placed_defaultValue hassign hmove.ready hstart hlt₁ none (by simp) h
  | _ =>
    simp only [hk] at h
    exact placed_defaultValue hassign hmove.ready hstart hlt₁ none (by simp) h

/-- An erased declaration leaves nothing when it is exported; all others are the only child of the export. -/
theorem exported_cases (start : Nat) (d : Tree) (h : (match d.label with
      | .erased _ names => return .node (.erased true names) ⟨start, d.span.stop⟩ []
      | _ => return .node .exportDecl ⟨start, d.span.stop⟩ [d] : Parse Tree) c = some (t, c')) :
    c = c' ∧ ((∃ names, t = .node (.erased true names) ⟨start, d.span.stop⟩ []) ∨
      t = .node .exportDecl ⟨start, d.span.stop⟩ [d]) := by
  have hpure : ∀ {made : Tree}, (pure made : Parse Tree) c = some (t, c') → made = t ∧ c = c' := by simp
  cases hlabel : d.label
  all_goals
    rw [hlabel] at h
    obtain ⟨rfl, rfl⟩ := hpure h
  case erased => exact ⟨rfl, .inl ⟨_, rfl⟩⟩
  all_goals exact ⟨rfl, .inr rfl⟩

/-- A declaration as a whole stands behind the words that export it. -/
theorem exports_exportedDeclaration (hrec : ReadsGoals text rec) {ds : Tree} (hds : ∀ m ∈ ds.calls, m.stop ≤ start) :
    Exports text start (exportedDeclaration rec ctx start ds) := fun c t c' hc hstart hlt h => by
  obtain ⟨first, _, hhere, h⟩ := run_bind_eq_some h
  obtain ⟨rfl, rfl⟩ := by simpa using hhere
  obtain ⟨ds', c₁, hlater, h⟩ := run_bind_eq_some h
  have hflanks := flanks_laterDecorators hrec hc hds hlater
  have hmove := quiet_laterDecorators hrec ds hc hlater
  obtain ⟨_, _, htypes, h⟩ := run_bind_eq_some h
  obtain ⟨rfl, rfl⟩ := by simpa [hmove.ready.plain] using htypes
  obtain ⟨ms, _, hms, h⟩ := run_bind_eq_some h
  obtain ⟨rfl, rfl⟩ := by simpa using hms
  obtain ⟨d, c₃, hdeclared, h⟩ := run_bind_eq_some h
  have hlast := quiet_declaration hrec _ hmove.ready hdeclared
  have hfound := declared_declaration hrec hmove.ready hdeclared
  have hspan : d.span.stop = c₃.lastStop := by rcases hfound.isInner with ⟨hd, -⟩ | ⟨hd, -⟩ <;> rw [hd]
  have hlies := (hmove.trans hlast).lies hstart hlt
  obtain ⟨rfl, ⟨names, rfl⟩ | rfl⟩ := exported_cases start d h
  all_goals rw [hspan]
  · exact ⟨⟨Nat.le_refl _, hlies.le_hi, fun _ => hlies, fun hlabel => by simp at hlabel, fun _ => rfl⟩, rfl⟩
  · exact ⟨.of_export rfl hlies (hfound.front hc hmove hlast hstart hlt)
      (hfound.uncut hmove.here (hflanks.weaken hlast.lastStop)), rfl⟩

theorem makes_importFrom (h : ImportHead) (specifiers : List Tree) :
    Makes start (importFrom start h specifiers) fun t => isModuleItem t = true → t.label.isImport = true :=
  .bind fun _ => .bind fun _ => .bind fun _ => .bind fun _ => Makes.finish fun _ _ => rfl

theorem makes_importEquals (name : Tree) : MakesInner start (importEquals start name) := by
  have hentity : MakesInner start (do
      let entity ← entityTree
      endStatement
      finish .importAlias start [name, entity]) := .bind fun _ => .bind fun _ => makesInner_finish fun _ => rfl
  refine .bind fun _ => .bind fun _ => .bind fun _ => .ite (.bind fun _ => .bind fun _ => ?_) hentity
  exact .bind fun _ => .bind fun _ => .bind fun _ => makesInner_finish fun _ => rfl

theorem makes_importDeclaration : LeadsFrom text start (importDeclaration ctx) fun t c =>
    t.span = ⟨start, c.lastStop⟩ ∧ (isModuleItem t = true → t.label.isImport = true) := by
  refine .here (.of_leads (.bind fun _ => .bind fun k => ?_))
  have hinner {p : Parse Tree} (hp : MakesInner start p) :
      Makes start p fun t => isModuleItem t = true → t.label.isImport = true :=
    hp.imp fun t _ ht => ⟨ht.1, fun hitem => by simp [ht.2] at hitem⟩
  have hclause (h : ImportHead) : Makes start (importClause ctx start h) fun t =>
      isModuleItem t = true → t.label.isImport = true := by
    refine .bind fun _ => .bind fun _ => .ite (.bind fun _ => makes_importFrom _ _) ?_
    refine .bind fun nameStart => .bind fun w => .bind fun _ => .bind fun _ => .ite ?_ ?_
    · refine .bind fun name => ?_
      by_cases htypes : h.typeOnly = true
      · simp only [if_pos htypes]
        exact .bind fun _ => Makes.finish fun _ hitem => by contradiction
      · simp only [if_neg htypes, bind_pure]
        exact hinner (makes_importEquals name)
    · refine .bind fun name => .bind fun _ => .ite (.bind fun _ => .bind fun _ => ?_) ?_
      all_goals exact makes_importFrom _ _
  split
  · exact .bind fun _ => .bind fun _ => .bind fun _ => Makes.finish fun _ _ => rfl
  · exact .bind hclause

/-- Only a declaration has decorators. -/
theorem Exports.undecorated (ds : Tree) {p : Parse Tree} (hp : Exports text start p) (hquiet : Quiet text p) :
    Exports text start (do
      let t ← p
      match t.label with
      | .exportList .. | .exportAll .. | .exportAssign => flawIf !ds.isHole
      | _ => pure ()
      pure t) := by
  refine hp.keep hquiet (fun t => ?_) fun t => ?_
  · dsimp only
    split
    iterate 3 exact (quiet_flawIf _).bind fun _ => .pure _
    exact .pure _
  · dsimp only
    split
    iterate 3 exact .bind fun _ => .pure rfl
    exact .pure rfl

theorem quiet_exportedDeclaration (hrec : ReadsGoals text rec) (ds : Tree) :
    Quiet text (exportedDeclaration rec ctx start ds) := by
  refine quiet_here.bind fun first => (quiet_laterDecorators hrec ds).bind fun ds => .types ?_
  refine (Quiet.pure _).bind fun ms => (quiet_declaration hrec ⟨first, ds, ms⟩).bind fun d => ?_
  split
  · exact .pure _
  · exact .pure _

/-- The word in front is no empty part of the text. -/
theorem past_expectWord {w : String} (hc : Ready text c) {u : Unit} (h : expectWord w c = some (u, c')) :
    Ready text c' ∧ c.token.span.start < c'.lastStop := by
  have hat : c.token.kind = .word w false := by
    by_contra hne
    simp [Parse.expectWord, hne, Parse.reject] at h
  obtain rfl : c.next = c' := by simpa [run_expectWord hat] using h
  exact ⟨hc.next.ready, hc.here_lt hat⟩

theorem placed_exportDeclaration (hrec : ReadsGoals text rec) (hassign : Assigns text rec) {ds : Tree}
    (hc : Ready text c) (hds : ∀ m ∈ ds.calls, m.stop ≤ c.token.span.start)
    (h : exportDeclaration rec ctx ds c = some (t, c')) :
    Placed text c.token.span.start c'.token.span.start t ∧ t.label.isImport = false := by
  obtain ⟨_, _, hhere, h⟩ := run_bind_eq_some h
  obtain ⟨rfl, rfl⟩ := by simpa using hhere
  obtain ⟨_, c₁, hword, h⟩ := run_bind_eq_some h
  obtain ⟨hc₁, hlt⟩ := past_expectWord hc hword
  obtain ⟨_, _, htypes, h⟩ := run_bind_eq_some h
  obtain ⟨rfl, rfl⟩ := by simpa [hc₁.plain] using htypes
  obtain ⟨k, _, hkind, h⟩ := run_bind_eq_some h
  obtain ⟨rfl, rfl⟩ := by simpa using hkind
  refine (?_ : Exports text c.token.span.start _) hc₁ hc.here hlt h
  split
  · exact exports_exportDefault hrec hassign hds
  · split
    · exact .undecorated ds (.of_list (reads_exportList _ _).quiet (makes_exportList _)) (reads_exportList _ _).quiet
    · exact .undecorated ds (.of_list (reads_exportAll _ _).quiet (makes_exportAll _)) (reads_exportAll _ _).quiet
    iterate 3 exact .undecorated ds .reject .reject
    · exact .undecorated ds (exports_exportedDeclaration hrec hds) (quiet_exportedDeclaration hrec ds)

/-! ### Imports -/

theorem placed_importDeclaration (hc : Ready text c) (h : importDeclaration ctx c = some (t, c')) :
    IsInner c.token.span.start t c' ∨ Placed text c.token.span.start c'.token.span.start t := by
  obtain ⟨hspan, himport⟩ := makes_importDeclaration hc rfl h
  cases hitem : isModuleItem t with
  | false => exact .inl ⟨hspan, hitem⟩
  | true =>
    right
    obtain ⟨_, _, hhere, h⟩ := run_bind_eq_some h
    obtain ⟨rfl, rfl⟩ := by simpa using hhere
    obtain ⟨_, c₁, hword, h⟩ := run_bind_eq_some h
    obtain ⟨hc₁, hlt⟩ := past_expectWord hc hword
    obtain ⟨hmove, hspaced⟩ := closes_importRest hc.here ctx hc₁ (Nat.le_of_lt hlt) h
    obtain ⟨hlink, hleaf⟩ := Label.isLink_of_isImport (himport hitem)
    refine .of_link (hspan ▸ hmove.lies hc.here hlt) hlink ?_
    obtain ⟨label, span, ks⟩ := t
    exact (hspaced.regular _ (List.mem_singleton_self _)).calls_leaf hleaf

end LiveNotes.Script
