import LiveNotes.Proofs.Script.Grammar.Statements

/-! Where the trees of expressions and statements stand. A tree starts at the token that its reader starts with, and
that of a statement ends with the last token read. -/

namespace LiveNotes.Script

open Parse Grammar

variable {text : List Char} {rec : Readers} {ctx : Context} {α β : Type} {p : Parse α} {c c' : Cursor} {start : Nat}

/-! ### Readers and where they end -/

/-- The reader stays at the same token. -/
def Stays (text : List Char) (p : Parse α) : Prop :=
  ∀ ⦃c a c'⦄, Ready text c → p c = some (a, c') → Ready text c' ∧ c'.token = c.token

/-- What the reader returns has the property, together with the cursor that it ends at. -/
def Leads (p : Parse α) (holds : α → Cursor → Prop) : Prop := ∀ ⦃c a c'⦄, p c = some (a, c') → holds a c'

/-- As `Leads`, for a reader whose first token is at `start`. -/
def LeadsFrom (text : List Char) (start : Nat) (p : Parse α) (holds : α → Cursor → Prop) : Prop :=
  ∀ ⦃c a c'⦄, Ready text c → c.token.span.start = start → p c = some (a, c') → holds a c'

namespace Stays

theorem of_run {a : Cursor → α} (h : ∀ c, p c = some (a c, c)) : Stays text p := fun c _ _ hc hrun => by
  obtain ⟨_, rfl⟩ := by simpa [h] using hrun
  exact ⟨hc, rfl⟩

theorem pure (a : α) : Stays text (Pure.pure a : Parse α) := .of_run fun _ => rfl

theorem bind {q : α → Parse β} (hp : Stays text p) (hq : ∀ a, Stays text (q a)) : Stays text (p >>= q) :=
  fun _ _ _ hc h => by
    obtain ⟨a, c', hfirst, hrest⟩ := run_bind_eq_some h
    obtain ⟨hc', hsame⟩ := hp hc hfirst
    exact (hq a hc' hrest).imp_right fun h => h.trans hsame

theorem ite {b : Prop} [Decidable b] {p q : Parse α} (hp : Stays text p) (hq : Stays text q) :
    Stays text (if b then p else q) := by
  split
  · exact hp
  · exact hq

theorem lookahead (p : Parse α) : Stays text (lookahead p) := fun c _ _ hc hrun => by
  rw [Parse.lookahead] at hrun
  split at hrun
  all_goals
    obtain ⟨_, rfl⟩ := by simpa using hrun
    exact ⟨hc, rfl⟩

theorem looksLike (p : Parse Bool) : Stays text (looksLike p) := (lookahead p).bind fun _ => .pure _

theorem flawIf (b : Bool) : Stays text (flawIf b) := fun _ _ _ hc h =>
  ⟨(quiet_flawIf b hc h).ready, (flawIf_keeps h).2.1⟩

end Stays

namespace Leads

variable {holds : β → Cursor → Prop}

theorem seq {q : α → Parse β} {first : α → Prop} (hp : Leads p fun a _ => first a)
    (hq : ∀ a, first a → Leads (q a) holds) : Leads (p >>= q) holds := fun _ _ _ h => by
  obtain ⟨a, c', hfirst, hrest⟩ := run_bind_eq_some h
  exact hq a (hp hfirst) hrest

theorem bind {q : α → Parse β} (hq : ∀ a, Leads (q a) holds) : Leads (p >>= q) holds :=
  .seq (fun _ _ _ _ => trivial : Leads p fun _ _ => True) fun a _ => hq a

theorem ite {b : Prop} [Decidable b] {p q : Parse β} (hp : Leads p holds) (hq : Leads q holds) :
    Leads (if b then p else q) holds := by
  split
  · exact hp
  · exact hq

theorem reject : Leads (Parse.reject : Parse β) holds := fun _ _ _ h => by simp [Parse.reject] at h

theorem pure {b : β} (h : ∀ c, holds b c) : Leads (Pure.pure b) holds := fun c _ _ hrun => by
  obtain ⟨rfl, rfl⟩ := by simpa using hrun
  exact h c

theorem finish {label : Label} {ks : List Tree} {holds : Tree → Cursor → Prop}
    (h : ∀ c : Cursor, holds (.node label ⟨start, c.lastStop⟩ ks) c) : Leads (Parse.finish label start ks) holds :=
  fun _ _ _ hrun => by
    obtain ⟨rfl, rfl⟩ := by simpa using hrun
    exact h _

theorem imp {holds' : β → Cursor → Prop} {p : Parse β} (h : Leads p holds) (himp : ∀ a c, holds a c → holds' a c) :
    Leads p holds' := fun _ _ _ hrun => himp _ _ (h hrun)

/-- What every step keeps holds when a loop stops. -/
theorem loop {step : α → Parse (Option α)} {holds : α → Prop}
    (hstep : ∀ a, holds a → Leads (step a) fun next? _ => ∀ b ∈ next?, holds b) {a : α} (ha : holds a) :
    Leads (Parse.loop step a) fun b _ => holds b := fun _ _ _ hrun =>
  loop_invariant (fun a _ => holds a) (fun _ _ _ ha _ => ha) (fun a b _ _ ha hnext => hstep a ha hnext b rfl) ha hrun

end Leads

namespace LeadsFrom

variable {holds : β → Cursor → Prop}

theorem of_leads {p : Parse β} (h : Leads p holds) : LeadsFrom text start p holds := fun _ _ _ _ _ hrun => h hrun

theorem here {q : Nat → Parse β} (hq : LeadsFrom text start (q start) holds) :
    LeadsFrom text start (here >>= q) holds := fun _ _ _ hc hstart h => by
  obtain ⟨_, _, hhere, h⟩ := run_bind_eq_some h
  obtain ⟨rfl, rfl⟩ := by simpa using hhere
  exact hq hc hstart (hstart ▸ h)

theorem stay {q : α → Parse β} (hp : Stays text p) (hq : ∀ a, LeadsFrom text start (q a) holds) :
    LeadsFrom text start (p >>= q) holds := fun _ _ _ hc hstart h => by
  obtain ⟨a, _, hfirst, h⟩ := run_bind_eq_some h
  obtain ⟨hc', hsame⟩ := hp hc hfirst
  exact hq a hc' (hsame ▸ hstart) h

/-- Neither types nor markup are read. -/
theorem types {q : Bool → Parse β} (hq : LeadsFrom text start (q false) holds) :
    LeadsFrom text start (typesAllowed >>= q) holds := fun c _ _ hc hstart h => by
  obtain ⟨_, _, htypes, h⟩ := run_bind_eq_some h
  obtain ⟨rfl, rfl⟩ := by simpa [hc.plain] using htypes
  exact hq hc hstart h

theorem markup {q : Bool → Parse β} (hq : LeadsFrom text start (q false) holds) :
    LeadsFrom text start (markupAllowed >>= q) holds := fun c _ _ hc hstart h => by
  obtain ⟨a, c', hmarkup, h⟩ := run_bind_eq_some h
  obtain ⟨rfl, rfl⟩ : false = a ∧ c = c' := by simpa [markupAllowed, hc.plain] using hmarkup
  exact hq hc hstart h

theorem seq {q : α → Parse β} {first : α → Prop} (hp : LeadsFrom text start p fun a _ => first a)
    (hq : ∀ a, first a → Leads (q a) holds) : LeadsFrom text start (p >>= q) holds := fun _ _ _ hc hstart h => by
  obtain ⟨a, _, hfirst, hrest⟩ := run_bind_eq_some h
  exact hq a (hp hc hstart hfirst) hrest

theorem ite {b : Prop} [Decidable b] {p q : Parse β} (hp : LeadsFrom text start p holds)
    (hq : LeadsFrom text start q holds) : LeadsFrom text start (if b then p else q) holds := by
  split
  · exact hp
  · exact hq

theorem reject : LeadsFrom text start (Parse.reject : Parse β) holds := of_leads .reject

end LeadsFrom

theorem stays_kind : Stays text kind := .of_run run_kind

theorem stays_token : Stays text token := .of_run run_token

theorem stays_atWord (w : String) : Stays text (atWord w) := .of_run (run_atWord w)

theorem stays_nextToken : Stays text nextToken := .of_run run_nextToken

theorem stays_atAwait (ctx : Context) : Stays text (atAwait ctx) :=
  (stays_atWord _).bind fun _ => .ite (.pure _) (.ite (.pure _) (stays_nextToken.bind fun _ => .pure _))

theorem stays_atIdentifier : Stays text atIdentifier := stays_kind.bind fun _ => .pure _

theorem stays_arrowLikelihood : Stays text arrowLikelihood := by
  refine stays_kind.bind fun k => ?_
  split
  iterate 3 exact (Stays.lookahead _).bind fun _ => .pure _
  exact .pure _

/-! ### Expressions -/

/-- The tree starts where its reader does. -/
def Begins (text : List Char) (start : Nat) (p : Parse Tree) : Prop :=
  LeadsFrom text start p fun t _ => t.span.start = start

/-- The tree starts at `start`. -/
def StartsAt (start : Nat) (p : Parse Tree) : Prop := Leads p fun t _ => t.span.start = start

theorem startsAt_finish (label : Label) (ks : List Tree) : StartsAt start (finish label start ks) :=
  .finish fun _ => rfl

theorem begins_regex : Begins text start regex := by
  refine .here (.of_leads (.bind fun s => ?_))
  dsimp only
  split
  · exact .reject
  · exact .bind fun _ => .bind fun _ => startsAt_finish _ _

theorem begins_template (tagged : Bool) : Begins text start (template rec ctx tagged) :=
  .here (.of_leads (.bind fun _ => startsAt_finish _ _))

theorem begins_arrayLiteral : Begins text start (arrayLiteral rec ctx) :=
  .here (.of_leads (.bind fun _ => .bind fun _ => .bind fun _ => startsAt_finish _ _))

theorem begins_objectLiteral : Begins text start (objectLiteral rec ctx) :=
  .here (.of_leads (.bind fun _ => .bind fun _ => .bind fun _ => startsAt_finish _ _))

theorem begins_parenthesized : Begins text start (parenthesized rec ctx) :=
  .here (.of_leads (.bind fun _ => .bind fun _ => .bind fun _ => startsAt_finish _ _))

theorem startsAt_functionExpression (isAsync : Bool) : StartsAt start (functionExpression rec start isAsync) := by
  refine .bind fun _ => .bind fun _ => .bind fun _ => .ite (.bind fun _ => ?_) (.bind fun _ => ?_)
  all_goals
    refine .bind fun rest => ?_
    dsimp only
    split
    · exact .reject
    · exact startsAt_finish _ _

/-- A node from `start` to the last token read. -/
def Makes (start : Nat) (p : Parse Tree) (holds : Tree → Prop) : Prop :=
  Leads p fun t c => t.span = ⟨start, c.lastStop⟩ ∧ holds t

theorem Makes.finish {label : Label} {ks : List Tree} {holds : Tree → Prop} (h : ∀ span, holds (.node label span ks)) :
    Makes start (Parse.finish label start ks) holds := Leads.finish fun _ => ⟨rfl, h _⟩

theorem Makes.startsAt {p : Parse Tree} {holds : Tree → Prop} (h : Makes start p holds) : StartsAt start p :=
  h.imp fun t _ ht => by rw [ht.1]

theorem makes_classTree (label : Label) (ds : Tree) :
    Makes start (classTree rec ctx label start ds) fun t => t.label = label := fun _ _ _ h => by
  obtain ⟨_, _, _, rfl⟩ := exists_classTree h
  exact ⟨rfl, rfl⟩

theorem begins_newExpression : Begins text start (newExpression rec ctx) := by
  refine .here (.of_leads (.bind fun _ => .bind fun _ => .ite (.bind fun _ => startsAt_finish _ _) ?_))
  refine .bind fun callee => .bind fun _ => .ite (.bind fun _ => ?_) ?_
  all_goals
    dsimp only
    split
    · exact .reject
    · exact .bind fun _ => .ite (.bind fun _ => startsAt_finish _ _) (.bind fun _ => startsAt_finish _ _)

theorem startsAt_importCall (phase : ImportPhase) : StartsAt start (importCall rec ctx start phase) := by
  refine .bind fun _ => .bind fun _ => .ite (.bind fun _ => ?_) ?_
  all_goals exact .bind fun _ => startsAt_finish _ _

theorem begins_importExpression : Begins text start (importExpression rec ctx) := by
  refine .here (.of_leads (.bind fun _ => .bind fun _ => .ite (.bind fun w => ?_) (startsAt_importCall _)))
  split
  · exact startsAt_finish _ _
  · exact startsAt_importCall _
  · exact startsAt_importCall _
  · exact .reject

theorem begins_primaryWord (w : String) : Begins text start (primaryWord rec ctx w) := by
  have hliteral (label : Label) : StartsAt start (do advance; finish label start []) := .bind fun _ => startsAt_finish _ _
  have hname (next : Option Token) : StartsAt start (do
      if next.any fun t => t.kind == .word "function" false && !t.newline then
        advance
        functionExpression rec start true
      else
        let name ← identifierText ctx
        finish (.read name) start []) :=
    .ite (.bind fun _ => startsAt_functionExpression _) (.bind fun _ => startsAt_finish _ _)
  refine .here ?_
  split
  · exact .of_leads (startsAt_functionExpression _)
  · exact .of_leads (makes_classTree _ _).startsAt
  · exact begins_newExpression
  · exact begins_importExpression
  iterate 4 exact .of_leads (hliteral _)
  · refine .of_leads (.seq (hliteral _) fun t ht => .bind fun _ => .bind fun _ => .bind fun _ => ?_)
    exact .ite (.pure fun _ => ht) (.bind fun _ => .pure fun _ => ht)
  · exact .of_leads (.ite (.bind hname) (.bind hname))

theorem begins_primary : Begins text start (primary rec ctx) := by
  refine .here (.stay stays_kind fun k => ?_)
  split
  · exact begins_primaryWord _
  iterate 4 exact .of_leads (.bind fun _ => startsAt_finish _ _)
  · exact begins_parenthesized
  · exact begins_arrayLiteral
  · exact begins_objectLiteral
  · exact begins_template _
  · exact begins_regex
  · exact begins_regex
  · exact .of_leads (.bind fun _ => (makes_classTree _ _).startsAt)
  · exact .reject

theorem startsAt_callOf (callee : Tree) (optional : Bool) : StartsAt start (callOf rec ctx start callee optional) :=
  .bind fun _ => startsAt_finish _ _

theorem startsAt_namedAccess (base : Tree) (optional : Bool) : StartsAt start (namedAccess start base optional) := by
  refine .bind fun _ => .bind fun k => ?_
  split
  · exact .bind fun _ => startsAt_finish _ _
  · exact .bind fun _ => startsAt_finish _ _
  · exact .reject

theorem startsAt_optionalAccess (base : Tree) : StartsAt start (optionalAccess rec ctx start base) := by
  have hcall : StartsAt start (do
      typeArguments rec
      callOf rec ctx start base true) := .bind fun _ => startsAt_callOf _ _
  refine .bind fun k => ?_
  split
  · exact startsAt_callOf _ _
  · exact .bind fun _ => startsAt_finish _ _
  iterate 2 exact .bind fun _ => .ite hcall (.bind fun _ => hcall)
  · exact startsAt_namedAccess _ _

/-- What was accessed so far starts at `start`. -/
theorem leads_access (calls : Bool) (a : Accessed) :
    Leads (access rec ctx calls start a) fun next? _ => ∀ b ∈ next?, b.tree.span.start = start := by
  have hstep {p : Parse Tree} (hp : StartsAt start p) (chained : Bool) :
      Leads (do return some ⟨← p, chained⟩) fun (next? : Option Accessed) _ => ∀ b ∈ next?, b.tree.span.start = start :=
    .seq hp fun t ht => .pure fun _ => by simpa using ht
  have hnone : Leads (pure none) fun (next? : Option Accessed) _ => ∀ b ∈ next?, b.tree.span.start = start :=
    .pure fun _ => by simp
  refine .bind fun k => ?_
  dsimp only
  split
  · exact .bind fun _ => hstep (startsAt_namedAccess _ _) _
  · exact .ite .reject (.ite hnone (.bind fun _ => hstep (startsAt_optionalAccess _) _))
  · exact .ite hnone (.bind fun _ => hstep (startsAt_finish _ _) _)
  · exact .bind fun _ => .bind fun _ => hstep (startsAt_finish _ _) _
  · exact .ite (hstep (startsAt_callOf _ _) _) hnone
  · exact .bind fun _ => .bind fun _ => .ite (.bind fun _ => hstep (startsAt_finish _ _) _) hnone
  iterate 2
    refine .bind fun _ => .ite (.bind fun found => ?_) hnone
    split
    · exact hstep (startsAt_finish _ _) _
    · exact hnone
  · exact hnone

theorem begins_accesses (calls : Bool) : Begins text start (accesses rec ctx calls) := by
  refine .here (.seq begins_primary fun base hbase => ?_)
  refine .seq (.loop (fun a _ => leads_access calls a) hbase) fun a ha => .ite (.pure fun _ => ha) ?_
  split
  · next s e htree =>
    rw [htree] at ha
    exact .bind fun _ => .pure fun _ => ha
  · exact startsAt_finish _ _

/-! ### Operators and assignments -/

theorem span_markPure (t : Tree) : (markPure t).span = t.span := by
  unfold markPure
  split <;> rfl

theorem span_markPureFunction (t : Tree) : (markPureFunction t).span = t.span := by
  unfold markPureFunction
  split <;> rfl

theorem begins_withNote {p : Parse Tree} (h : Begins text start p) : Begins text start (withNote p) := by
  refine .stay stays_token fun s => .seq h fun t ht => .pure fun _ => ?_
  split
  · rw [span_markPure, ht]
  · exact ht

theorem begins_postfix : Begins text start (postfix_ rec ctx) := by
  refine .here (.seq (begins_accesses true) fun t ht => .bind fun _ => .bind fun _ => .bind fun _ => ?_)
  exact .ite (.bind fun _ => .bind fun _ => startsAt_finish _ _) (.pure fun _ => ht)

theorem begins_unary : Begins text start (unary rec ctx) := by
  have hangled : Begins text start (angled rec ctx) := .here (.markup (.types .reject))
  refine .here (.stay stays_kind fun k => ?_)
  split
  · exact .of_leads (.bind fun _ => .bind fun _ => startsAt_finish _ _)
  · split
    iterate 2 exact .of_leads (.bind fun _ => .bind fun _ => .bind fun _ => startsAt_finish _ _)
    · exact hangled
    · exact hangled
    · refine .stay (stays_atAwait ctx) fun _ => .ite (.of_leads ?_) begins_postfix
      exact .bind fun _ => .bind fun _ => .bind fun _ => startsAt_finish _ _

theorem begins_operand (least : Nat) : Begins text start (operand rec ctx least) := by
  have hsearch (w : String) : Begins text start (privateSearch rec ctx least w) := by
    have hrest : StartsAt start (do
        expectWord "in"
        let e ← rec (.binary ctx (comparePrecedence + 1))
        if least > comparePrecedence then reject
        finish (.privateIn w) start [e]) :=
      .bind fun _ => .bind fun _ => .ite (.bind fun _ => startsAt_finish _ _) (startsAt_finish _ _)
    exact .here (.of_leads (.bind fun _ => .ite hrest (.bind fun _ => hrest)))
  refine .stay stays_kind fun k => ?_
  split
  · exact hsearch _
  · exact begins_withNote begins_unary

theorem leads_binaryStep (least : Nat) (left : Tree) :
    Leads (binaryStep rec ctx least start left) fun next? _ => ∀ t ∈ next?, t.span.start = start := by
  have hsome (label : Label) (ks : List Tree) : Leads (do return some (← finish label start ks)) fun next? _ =>
      ∀ t ∈ next?, t.span.start = start := .seq (startsAt_finish _ _) fun t ht => .pure fun _ => by simpa using ht
  refine .bind fun _ => .ite (.bind fun _ => .bind fun _ => hsome _ _) (.bind fun op? => ?_)
  cases op? with
  | none => exact .pure fun _ => by simp
  | some op =>
    refine .ite (.pure fun _ => by simp) (.bind fun s => .ite ?_ ?_)
    all_goals exact .bind fun _ => .bind fun _ => .bind fun _ => hsome _ _

theorem begins_binary (least : Nat) : Begins text start (binary rec ctx least) :=
  .here (.seq (begins_operand least) fun _ hfirst => .loop (fun left _ => leads_binaryStep least left) hfirst)

theorem startsAt_arrowRest (isAsync : Bool) (ps : Tree) : StartsAt start (arrowRest rec ctx start isAsync ps) := by
  have hrest : StartsAt start (do
      expectPunct .arrow
      let inner := insideArrow ctx isAsync
      if ← atPunct .leftBrace then
        let body ← functionBody rec inner
        finish (.arrow { isAsync }) start [ps, body]
      else
        let body ← rec (.assignment { inner with returns := false, resultTypes := ctx.resultTypes })
        finish (.arrow { isAsync, concise := true }) start [ps, body]) :=
    .bind fun _ => .bind fun _ => .ite (.bind fun _ => startsAt_finish _ _) (.bind fun _ => startsAt_finish _ _)
  exact .bind fun _ => .ite (.bind fun _ => hrest) hrest

theorem begins_parenArrow : Begins text start (parenArrow rec ctx) := by
  refine .here (.of_leads (.bind fun isAsync => .bind fun _ => .ite (.bind fun _ => ?_) ?_))
  all_goals
    refine .bind fun ps => .bind fun annotated => .seq (startsAt_arrowRest _ _) fun t ht => ?_
    exact .bind fun _ => .ite (.bind fun _ => .pure fun _ => ht) (.pure fun _ => ht)

/-- What a reader that may find nothing finds starts where the reader does; it has not moved if it finds nothing. -/
def MayBegin (text : List Char) (start : Nat) (p : Parse (Option Tree)) : Prop :=
  LeadsFrom text start p fun t? c' => t?.elim (Ready text c' ∧ c'.token.span.start = start) (·.span.start = start)

theorem mayBegin_none : MayBegin text start (pure none) := fun c _ _ hc hstart h => by
  obtain ⟨rfl, rfl⟩ := by simpa using h
  exact ⟨hc, hstart⟩

theorem mayBegin_some {p : Parse Tree} (h : Begins text start p) : MayBegin text start (do return some (← p)) :=
  .seq h fun _ ht => .pure fun _ => ht

theorem mayBegin_nameArrow? : MayBegin text start (nameArrow? rec ctx) := by
  have hname (isAsync : Bool) : StartsAt start (nameArrow rec ctx start isAsync) :=
    .bind fun _ => .bind fun _ => startsAt_arrowRest _ _
  refine .here (.stay stays_atIdentifier fun _ => .ite mayBegin_none (.stay stays_nextToken fun next => ?_))
  refine .ite (mayBegin_some (.of_leads (hname false))) (.stay (stays_atWord _) fun _ => .ite ?_ mayBegin_none)
  refine .stay (.looksLike _) fun _ => .ite (.of_leads (.bind fun _ => ?_)) mayBegin_none
  exact .seq (hname true) fun t ht => .pure fun _ => ht

theorem mayBegin_arrow? : MayBegin text start (arrow? rec ctx) := by
  refine .stay stays_arrowLikelihood fun likelihood => ?_
  cases likelihood with
  | yes => exact mayBegin_some begins_parenArrow
  | maybe =>
    intro c t? c' hc hstart h
    obtain ⟨tried?, c₁, htry, h⟩ := run_bind_eq_some h
    rw [attempt] at htry
    split at htry
    next hparen =>
      obtain ⟨rfl, rfl⟩ := by simpa using htry
      obtain ⟨rfl, rfl⟩ := by simpa using h
      exact begins_parenArrow hc hstart hparen
    next =>
      obtain ⟨rfl, rfl⟩ := by simpa using htry
      exact mayBegin_nameArrow? hc hstart h
  | no => exact mayBegin_nameArrow?

theorem begins_yieldExpression : Begins text start (yieldExpression rec ctx) := by
  refine .here (.of_leads (.bind fun _ => .bind fun _ => .bind fun _ => .ite ?_ (.bind fun _ => .ite ?_ ?_)))
  · exact .bind fun _ => .bind fun _ => startsAt_finish _ _
  · exact .bind fun _ => startsAt_finish _ _
  · exact .bind fun _ => startsAt_finish _ _

theorem startsAt_conditionalRest {test : Tree} (h : test.span.start = start) :
    StartsAt start (conditionalRest rec ctx start test) := by
  refine .bind fun _ => .ite ?_ (.pure fun _ => h)
  exact .bind fun _ => .bind fun _ => .bind fun _ => startsAt_finish _ _

theorem startsAt_assignmentRest (left : Tree) (op : AssignOp) (place : Place) :
    StartsAt start (assignmentRest rec ctx start left op place) := by
  unfold assignmentRest
  split
  · exact .reject
  · refine .bind fun _ => .ite ?_ ?_
    all_goals exact .bind fun _ => .bind fun _ => startsAt_finish _ _

/-- An expression starts at the first token that is read of it. -/
theorem begins_assignment : Begins text start (assignment rec ctx) := by
  refine .stay stays_token fun s => .stay (stays_atWord _) fun _ => .ite begins_yieldExpression ?_
  have hnoted {t : Tree} (ht : t.span.start = start) :
      (if s.pureFunction then markPureFunction t else t).span.start = start := by
    split
    · rw [span_markPureFunction, ht]
    · exact ht
  intro c t c' hc hstart h
  obtain ⟨t?, c₁, harrow, h⟩ := run_bind_eq_some h
  have hfound := mayBegin_arrow? hc hstart harrow
  -- the start is that of an arrow function, or of the operand that the rest is read behind
  cases t? with
  | some t =>
    obtain ⟨rfl, rfl⟩ := by simpa using h
    exact hnoted hfound
  | none =>
    obtain ⟨hc₁, rfl⟩ := hfound
    obtain ⟨_, _, hhere, h⟩ := run_bind_eq_some h
    obtain ⟨rfl, rfl⟩ := by simpa using hhere
    obtain ⟨left, c₂, hbinary, h⟩ := run_bind_eq_some h
    obtain ⟨op?, c₃, _, h⟩ := run_bind_eq_some h
    have hleft := begins_binary 0 hc₁ rfl hbinary
    cases op? with
    | some op => exact startsAt_assignmentRest left op.1 op.2 h
    | none =>
      obtain ⟨t, c₄, hrest, h⟩ := run_bind_eq_some h
      obtain ⟨rfl, rfl⟩ := by simpa using h
      exact hnoted (startsAt_conditionalRest hleft hrest)

end LiveNotes.Script
