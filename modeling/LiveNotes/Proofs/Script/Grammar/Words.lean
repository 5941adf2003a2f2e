import LiveNotes.Proofs.Script.Gathering

/-! Leaves made of names, keys and patterns. -/

namespace LiveNotes.Script

open Parse Grammar

variable {text : List Char} {lo : Nat} {c c' : Cursor} {α : Type}

/-- The leaf that is the current token. -/
theorem Ready.leaf (hc : Ready text c) {label : Label} (hleaf : label.isLeaf = true)
    (hregular : Regular text (.node label c.token.span [])) :
    Spaced text c.token.span.start c.next.lastStop [.node label c.token.span []] :=
  .leaf hleaf hregular hc.here hc.there hc.here_le

theorem regular_identifier {label : Label} {span : Span} {w : String} (h : label.identifier? = some w)
    (hspells : span.Spells text w) : Regular text (.node label span []) := by
  refine regular_node ?_ (by simp)
  cases label <;> simp_all [Label.identifier?, Fits]

/-- A leaf that is no identifier fits whatever it stands for. -/
theorem regular_leaf {label : Label} {span : Span} (hleaf : label.isLeaf = true) (h : label.identifier? = none) :
    Regular text (.node label span []) := by
  refine regular_node ?_ (by simp)
  cases label <;> simp_all [Label.identifier?, Label.isLeaf, Fits]

/-! ### Names -/

@[simp] theorem quiet_useName (ctx : Context) (w : String) : Quiet text (useName ctx w) := by
  refine (quiet_flawIf _).bind fun _ => .ite ?_ (.pure _)
  exact quiet_modify fun _ h => ⟨{ h with }, Nat.le_refl _, Nat.le_refl _, id⟩

/-- Only notes about the text are taken. -/
theorem useName_keeps {ctx : Context} {w : String} {u : Unit} (h : useName ctx w c = some (u, c')) :
    c'.token = c.token ∧ c'.lastStop = c.lastStop := by
  obtain ⟨_, c₁, hflaw, h⟩ := run_bind_eq_some h
  obtain ⟨_, hkeeps⟩ := flawIf_keeps hflaw
  split at h
  · obtain rfl : { c₁ with namesAwait := true } = c' := by
      simpa [modify, modifyGet, MonadStateOf.modifyGet, StateT.modifyGet] using h
    exact hkeeps
  · obtain ⟨_, rfl⟩ := by simpa using h
    exact hkeeps

/-- An identifier is the current token, behind which the cursor moves. -/
theorem identifierText_token {ctx : Context} {w : String} (h : identifierText ctx c = some (w, c')) :
    (∃ escaped, c.token.kind = .word w escaped) ∧ c'.lastStop = c.token.span.stop := by
  obtain ⟨k, c₁, hkind, h⟩ := run_bind_eq_some h
  obtain ⟨rfl, rfl⟩ := by simpa using hkind
  cases hword : c.token.kind with
  | word x escaped =>
    simp only [hword] at h
    split at h
    · simp [reject] at h
    · obtain ⟨_, c₂, huse, h⟩ := run_bind_eq_some h
      obtain ⟨_, c₃, hadvance, h⟩ := run_bind_eq_some h
      obtain rfl : c₂.next = c₃ := by simpa using hadvance
      obtain ⟨rfl, rfl⟩ := by simpa using h
      exact ⟨⟨escaped, rfl⟩, congrArg (·.span.stop) (useName_keeps huse).1⟩
  | _ => simp [hword, reject] at h

@[simp] theorem quiet_identifierText (ctx : Context) : Quiet text (identifierText ctx) := by
  refine quiet_kind.bind fun k => ?_
  split
  next w _ => exact .ite (Quiet.reject.bind fun _ => by simp) (by simp)
  next => exact .reject

/-- The leaf of an identifier that is the current token. -/
theorem leaf_identifier (hc : Ready text c) {ctx : Context} {w : String} (h : identifierText ctx c = some (w, c'))
    {label : Label} (hlabel : label.identifier? = some w) (hleaf : label.isLeaf = true) :
    Onward text c c' ∧
      Spaced text c.token.span.start c'.lastStop [.node label ⟨c.token.span.start, c'.lastStop⟩ []] := by
  obtain ⟨⟨escaped, hword⟩, hstop⟩ := identifierText_token h
  rw [hstop]
  exact ⟨quiet_identifierText ctx hc h, hc.leaf hleaf (regular_identifier hlabel (hc.spells hword))⟩

theorem reads_identifier (ctx : Context) {label : String → Label} (hlabel : ∀ w, (label w).identifier? = some w)
    (hleaf : ∀ w, (label w).isLeaf = true) :
    Reads text (here >>= fun start => identifierText ctx >>= fun w => finish (label w) start []) := by
  intro lo c t c'' hc hlo _ h
  obtain ⟨start, c', hhere, h⟩ := run_bind_eq_some h
  obtain ⟨rfl, rfl⟩ := by simpa using hhere
  obtain ⟨w, c₁, hword, h⟩ := run_bind_eq_some h
  obtain ⟨rfl, rfl⟩ := by simpa using h
  obtain ⟨hmove, hmade⟩ := leaf_identifier hc hword (hlabel w) (hleaf w)
  exact ⟨hmove, hmade.weaken hlo (Nat.le_refl _)⟩

theorem moves_identifierText (ctx : Context) : Moves text (identifierText ctx) fun _ => True := fun c w c' hc h _ => by
  rw [(identifierText_token h).2]
  exact hc.here_le

theorem reads_bindingName (ctx : Context) : Reads text (bindingName ctx) :=
  reads_identifier ctx (fun _ => rfl) (fun _ => rfl)

@[simp] theorem quiet_wordText : Quiet text wordText := by
  refine quiet_kind.bind fun k => ?_
  split <;> simp

@[simp] theorem quiet_atIdentifier : Quiet text atIdentifier := by simp [atIdentifier]

/-! ### Lists -/

theorem reads_hole : Reads text holeHere := by
  intro lo c t c' hc hlo _ h
  obtain ⟨rfl, rfl⟩ : Tree.hole c.token.span.start = t ∧ c = c' := by simpa [holeHere] using h
  exact ⟨.refl hc, .hole _⟩

/-- Elements of a list, with commas between them. -/
theorem Gives.commaEnded {item : Parse Tree} (h : Reads text item) (close : Punct) :
    Gives text (commaEnded close item) fun found => found.1 := by
  intro lo
  refine .seq (Gathers.loop (fun found : List Tree × Bool => found.1.reverse) (fun found => ?_) ([], false))
    fun found => .pure rfl
  refine .quiet (quiet_atPunct close) fun _ => .ite (.pure rfl) ?_
  refine .read h fun t => .quiet (quiet_eatPunct .comma) fun comma => .ite (.pure (by simp)) ?_
  exact .quiet (quiet_atPunct close) fun _ => .ite (.pure (by simp)) (.quiet .reject fun _ => .pure (by simp))

theorem Gives.commaList {item : Parse Tree} (h : Reads text item) (close : Punct) :
    Gives text (Grammar.commaList close item) fun found => found := by
  intro lo
  exact .bind (.commaEnded h close) fun _ => .pure rfl

theorem quiet_commaStep {item : Parse α} (h : Quiet text item) (close : Punct) (found : List α × Bool) :
    Quiet text (commaStep close item found) := by
  refine (quiet_atPunct close).bind fun _ => .ite (.pure _) (h.bind fun a => (quiet_eatPunct .comma).bind fun _ => ?_)
  exact .ite (.pure _) ((quiet_atPunct close).bind fun _ => .ite (.pure _) (Quiet.reject.bind fun _ => .pure _))

@[simp] theorem quiet_commaList {item : Parse α} (h : Quiet text item) (close : Punct) :
    Quiet text (Grammar.commaList close item) :=
  .map ((quiet_loop (quiet_commaStep h close) _).bind fun _ => .pure _)

/-- What holds of each element holds of all elements of a list. -/
theorem Yields.commaList {item : Parse α} {holds : α → Prop} (h : Yields item holds) (close : Punct) :
    Yields (Grammar.commaList close item) fun found => ∀ a ∈ found, holds a := by
  have hloop : Yields (loop (commaStep close item) ([], false)) fun found => ∀ a ∈ found.1, holds a := by
    intro c found c' hrun
    refine loop_invariant (fun found _ => ∀ a ∈ found.1, holds a) (fun _ _ _ h _ => h) ?_ (by simp) hrun
    rintro ⟨before, comma⟩ ⟨found, comma'⟩ c₁ c₂ hbefore hstep
    have hnext : Yields (commaStep close item (before, comma)) fun next? =>
        ∀ next ∈ next?, ∀ a ∈ next.1, holds a := by
      refine .bind fun _ => .ite (.pure (by simp)) (.seq h fun a ha => .bind fun comma => ?_)
      have hmore : ∀ x ∈ a :: before, holds x := by simpa using ⟨ha, hbefore⟩
      refine .ite (.pure (by simpa using hmore)) (.bind fun _ => .ite (.pure (by simpa using hmore)) (.bind fun _ => ?_))
      exact .pure (by simpa using hmore)
    exact hnext hstep _ rfl
  refine .seq (.seq hloop fun found hfound => .pure ?_) fun found hfound => .pure hfound
  simpa using hfound

/-! ### Readers of goals -/

/-- Whether a text without types and markup can hold what is read. -/
def isPlainGoal : Goal → Bool
  | .type _ | .element _ => false
  | _ => true

/-- The readers of all goals of the plain language make trees of what they read. -/
def ReadsGoals (text : List Char) (rec : Readers) : Prop := ∀ g, isPlainGoal g = true → Reads text (rec g)

variable {rec : Readers}

theorem reads_expression (hrec : ReadsGoals text rec) (ctx : Context) : Reads text (expression rec ctx) := by
  intro lo
  refine .quiet quiet_here fun start => .read (hrec _ rfl) fun first => ?_
  refine .quiet (quiet_atPunct _) fun _ => .ite ?_ (.pure rfl)
  refine .bind (.many ?_) fun others => .finish rfl fun _ => trivial
  intro lo
  refine .quiet (quiet_eatPunct _) fun _ => .ite ?_ (.pure rfl)
  exact .read (hrec _ rfl) fun t => .pure rfl

/-- The key of a property. One that is a word is the token where the cursor has stood. -/
theorem propertyKey_gives (hrec : ReadsGoals text rec) {ctx : Context} (hc : Ready text c) {key : Tree}
    {computed : Bool} (h : propertyKey rec ctx c = some ((key, computed), c')) :
    (Onward text c c' ∧ Spaced text c.token.span.start c'.lastStop [key]) ∧
      ∀ x escaped, c.token.kind = .word x escaped →
        key = .node (.name x) c.token.span [] ∧ c'.lastStop = c.token.span.stop := by
  obtain ⟨start, c₁, hhere, h⟩ := run_bind_eq_some h
  obtain ⟨rfl, rfl⟩ := by simpa using hhere
  obtain ⟨k, c₁, hkind, h⟩ := run_bind_eq_some h
  obtain ⟨rfl, rfl⟩ := by simpa using hkind
  have hleaf {label : Label} (hlabel : label.isLeaf = true)
      (hregular : Regular text (.node label c.token.span [])) :
      Onward text c c.next ∧ Spaced text c.token.span.start c.next.lastStop [.node label c.token.span []] :=
    ⟨hc.next, hc.leaf hlabel hregular⟩
  cases hk : c.token.kind with
  | word x escaped =>
    obtain ⟨⟨rfl, rfl⟩, rfl⟩ := by simpa [hk] using h
    refine ⟨hleaf rfl (regular_identifier rfl (hc.spells hk)), ?_⟩
    rintro x _ ⟨rfl, rfl⟩
    exact ⟨rfl, rfl⟩
  | string | number | bigint | privateWord =>
    obtain ⟨⟨rfl, rfl⟩, rfl⟩ := by simpa [hk] using h
    exact ⟨hleaf rfl (regular_leaf rfl rfl), by simp⟩
  | punct mark =>
    refine ⟨?_, by simp⟩
    cases mark with
    | leftBracket =>
      simp only [hk] at h
      have hbrackets : Gives text (do
          advance
          let key ← rec (.assignment ctx.inside)
          expectPunct .rightBracket
          return (key, true)) fun key : Tree × Bool => [key.1] := fun lo =>
        .quiet quiet_advance fun _ => .read (hrec _ rfl) fun key =>
          .quiet (quiet_expectPunct _) fun _ => .pure rfl
      exact hbrackets _ hc (Nat.le_refl _) .nil h
    | _ => simp [hk, reject] at h
  | _ => simp [hk, reject] at h

theorem Gives.propertyKey (hrec : ReadsGoals text rec) (ctx : Context) :
    Gives text (propertyKey rec ctx) fun key => [key.1] := by
  rintro lo c ⟨key, computed⟩ c' hc hlo _ h
  obtain ⟨hmove, hkey⟩ := (propertyKey_gives hrec hc h).1
  exact ⟨hmove, hkey.weaken hlo (Nat.le_refl _)⟩

/-- The labels of a value that its key names, of the value with a default, and of the property. -/
inductive NamesValue (w : String) : Label → Label → Label → Prop
  | property : NamesValue w (.read w) .coverDefault (.property .value false true)
  | binding : NamesValue w (.binding w) .withDefault (.bindingProperty false true)

/-- The property whose key names its value. -/
theorem NamesValue.spaced {w : String} {leaf both whole : Label} (h : NamesValue w leaf both whole) {span s : Span}
    {hi : Nat} {value : Tree} (hkey : span.Spells text w) (hvalue : Spaced text lo hi [value])
    (hspan : value.label = .coverDefault ∨ value.label = .withDefault ∨
      value.label.identifier?.isSome ∧ value.span = s) :
    Spaced text lo hi [.node whole s [.node (.name w) span [], value]] := by
  have hregular : Regular text (.node (.name w) span []) := regular_identifier rfl hkey
  cases h with
  | property => exact hvalue.shorthand rfl rfl ⟨w, span, value, rfl, hspan⟩ hregular
  | binding => exact hvalue.shorthand rfl rfl ⟨w, span, value, rfl, hspan⟩ hregular

/-- The rest of a property whose key names its value, from behind its key on. -/
theorem shorthand_gives (hrec : ReadsGoals text rec) {ctx inner : Context} {w : String} {leaf both whole : Label}
    (hlabels : NamesValue w leaf both whole) {span : Span} (hkey : span.Spells text w) (hc : Ready text c)
    (hstop : c.lastStop = span.stop) (hlo : lo ≤ c.token.span.start)
    (hname : Spaced text lo c.lastStop [.node leaf span []]) {t : Tree}
    (h : (do
      useName ctx w
      if ← eatPunct .assign then
        let value ← rec (.assignment inner)
        let full ← finish both span.start [.node leaf span [], value]
        finish whole span.start [.node (.name w) span [], full]
      else finish whole span.start [.node (.name w) span [], .node leaf span []] : Parse Tree) c = some (t, c')) :
    Onward text c c' ∧ Spaced text lo c'.lastStop [t] := by
  obtain ⟨_, c₁, huse, h⟩ := run_bind_eq_some h
  obtain ⟨_, c₂, heat, h⟩ := run_bind_eq_some h
  have hmove := quiet_useName ctx w hc huse
  have hsame := (useName_keeps huse).2
  rw [run_eatPunct, Option.some_inj, Prod.mk.injEq] at heat
  obtain ⟨rfl, rfl⟩ := heat
  split at h
  next =>
    have hfull : Gathers text lo [.node leaf span []] (do
        let value ← rec (.assignment inner)
        let full ← finish both span.start [.node leaf span [], value]
        finish whole span.start [.node (.name w) span [], full]) fun t => [t] := by
      refine .read (hrec _ rfl) fun value => .node fun span' => .finishWith fun s stop hts => ?_
      cases hlabels with
      | property => exact NamesValue.property.spaced hkey (hts.node rfl trivial) (.inl rfl)
      | binding => exact NamesValue.binding.spaced hkey (hts.node rfl trivial) (.inr (.inl rfl))
    have hnext := hmove.trans hmove.ready.next
    exact hfull.run hnext hlo (hname.weaken (Nat.le_refl _) hnext.lastStop) h
  next =>
    obtain ⟨rfl, rfl⟩ := by simpa using h
    refine ⟨hmove, ?_⟩
    rw [hsame, hstop]
    rw [hstop] at hname
    exact hlabels.spaced hkey hname (.inr (.inr ⟨by cases hlabels <;> rfl, rfl⟩))

/-! ### Modifiers -/

@[simp] theorem quiet_modifiers (place : ModifierPlace) : Quiet text (modifiers place) := by
  refine (quiet_loop (fun found => quiet_kind.bind fun k => ?_) []).bind fun _ => .pure _
  split
  · refine quiet_nextToken.bind fun next => .ite ?_ (.pure _)
    simp
  · exact .pure _

@[simp] theorem quiet_checkModifiers (allowed : Modifier → Bool) (ms : List Modifier) :
    Quiet text (checkModifiers allowed ms) := by simp [checkModifiers]

/-! ### Patterns -/

@[simp] theorem quiet_typeAnnotation : Quiet text ( typeAnnotation rec) := .types (.pure _)

theorem reads_withDefault (hrec : ReadsGoals text rec) (ctx : Context) {pattern : Parse Tree}
    (h : Reads text pattern) : Reads text (withDefault rec ctx pattern) := by
  intro lo
  refine .quiet quiet_here fun start => .read h fun p => .quiet (quiet_eatPunct _) fun _ => .ite ?_ (.pure rfl)
  exact .read (hrec _ rfl) fun value => .finish rfl fun _ => trivial

/-- A key in front of which a name was seen is that name, and ends where the cursor has come to. -/
theorem exists_name_of_atIdentifier (hrec : ReadsGoals text rec) {ctx : Context} (hc : Ready text c) {key : Tree}
    {computed : Bool} (hname : isIdentifier c.token.kind = true)
    (h : propertyKey rec ctx c = some ((key, computed), c')) :
    ∃ w, key = .node (.name w) c.token.span [] ∧ c'.lastStop = c.token.span.stop ∧ c.token.span.Spells text w := by
  cases hk : c.token.kind with
  | word w escaped =>
    obtain ⟨hkey, hstop⟩ := (propertyKey_gives hrec hc h).2 w escaped hk
    exact ⟨w, hkey, hstop, hc.spells hk⟩
  | _ => simp [hk, isIdentifier] at hname

theorem reads_bindingProperty (hrec : ReadsGoals text rec) (ctx : Context) :
    Reads text (bindingProperty rec ctx) := by
  intro lo
  refine .quiet quiet_here fun start => .quiet (quiet_eatPunct _) fun _ => .ite ?_ ?_
  · refine .read (reads_bindingName ctx) fun p => .quiet (quiet_atPunct _) fun _ => .ite ?_ (.quiet .reject fun _ => ?_)
    all_goals exact .finish rfl fun _ => trivial
  · intro c t c'' hc hlo hts h
    obtain ⟨atName, c₁, hat, h⟩ := run_bind_eq_some h
    obtain ⟨rfl, rfl⟩ : isIdentifier c.token.kind = atName ∧ c = c₁ := by simpa [atIdentifier] using hat
    obtain ⟨⟨key, computed⟩, c₁, hkey, h⟩ := run_bind_eq_some h
    obtain ⟨hmove, hmade⟩ := (propertyKey_gives hrec hc hkey).1
    have hmade := hmade.weaken hlo (Nat.le_refl _)
    have hcolon : Gathers text lo [key] (do
        let value ← withDefault rec ctx (rec (.pattern ctx))
        finish (.bindingProperty computed false) start [key, value]) fun t => [t] :=
      .read (reads_withDefault hrec ctx (hrec _ rfl)) fun value => .finish rfl fun _ => trivial
    cases hname : isIdentifier c.token.kind with
    | false =>
      rw [hname] at h
      refine Gathers.runTree ?_ hmove hlo hmade h
      dsimp only
      split
      · exact .reject
      · exact .quiet (quiet_eatPunct _) fun _ => .ite hcolon .reject
    | true =>
      obtain ⟨w, rfl, hstop, hspells⟩ := exists_name_of_atIdentifier hrec hc hname hkey
      rw [hname] at h
      obtain ⟨_, c₂, heat, h⟩ := run_bind_eq_some h
      rw [run_eatPunct, Option.some_inj, Prod.mk.injEq] at heat
      obtain ⟨rfl, rfl⟩ := heat
      split at h
      · have hnext := hmove.trans hmove.ready.next
        exact hcolon.run hnext hlo (hmade.weaken (Nat.le_refl _) hmove.ready.next.lastStop) h
      · have hvalue : Spaced text lo c₁.lastStop [.node (.binding w) c.token.span []] := by
          rw [hstop]
          exact (hc.leaf rfl (regular_identifier rfl hspells)).weaken hlo (Nat.le_refl _)
        exact And.imp_left hmove.trans
          (shorthand_gives hrec .binding hspells hmove.ready hstop (Nat.le_trans hlo hmove.here) hvalue h)

theorem reads_bindingElement (hrec : ReadsGoals text rec) (ctx : Context) :
    Reads text (bindingElement rec ctx) := by
  intro lo
  refine .quiet (quiet_atPunct _) fun _ => .ite (reads_hole lo) ?_
  refine .quiet quiet_here fun start => .quiet (quiet_eatPunct _) fun _ => .ite ?_ ?_
  · refine .read (hrec _ rfl) fun p => .quiet (quiet_atPunct _) fun _ => .ite ?_ (.quiet .reject fun _ => ?_)
    all_goals exact .finish rfl fun _ => trivial
  · exact reads_withDefault hrec ctx (hrec _ rfl) lo

theorem reads_pattern (hrec : ReadsGoals text rec) (ctx : Context) : Reads text (pattern rec ctx) := by
  intro lo
  refine .quiet quiet_here fun start => .quiet quiet_kind fun k => ?_
  split
  · refine .quiet quiet_advance fun _ => .bind (.commaList (reads_bindingProperty hrec ctx) _) fun props => ?_
    exact .quiet (quiet_expectPunct _) fun _ => .finish rfl fun _ => trivial
  · refine .quiet quiet_advance fun _ => .bind (.commaList (reads_bindingElement hrec ctx) _) fun items => ?_
    exact .quiet (quiet_expectPunct _) fun _ => .finish rfl fun _ => trivial
  · exact reads_bindingName ctx lo

/-! ### Parameters -/

theorem reads_decorators (hrec : ReadsGoals text rec) (ctx : Context) : Reads text (decorators rec ctx) := by
  intro lo
  refine .quiet quiet_here fun start => .bind (.many fun lo => ?_) fun found => .ite ?_ ?_
  · refine .quiet (quiet_eatPunct _) fun _ => .ite ?_ (.pure rfl)
    exact .read (hrec _ rfl) fun t => .pure rfl
  · exact .pureWith fun _ _ => .hole _
  · exact .finish rfl fun _ => trivial

theorem reads_restParameter (hrec : ReadsGoals text rec) (ctx : Context) (start : Nat) :
    Reads text (restParameter rec ctx start) := by
  intro lo
  refine .read (hrec _ rfl) fun p => .quiet quiet_typeAnnotation fun _ => .quiet (quiet_atPunct _) fun _ => ?_
  have hrest : Gathers text lo [p] (finish .rest start [p]) fun t => [t] := .finish rfl fun _ => trivial
  exact .ite hrest (.quiet quiet_nextToken fun _ => .ite hrest (.quiet .reject fun _ => hrest))

/-- A parameter of a constructor may declare a field. -/
theorem gathers_declaredParameter (ms : List Modifier) (owner : ParameterOwner) (label : Label) (start : Nat) (full : Tree) :
    Gathers text lo [full] (do
      if ms.isEmpty then pure full
      else if owner == .constructor then
        checkModifiers declaresField ms
        match label with
        | .binding _ => pure ()
        | _ => flaw
        finish .fieldParam start [full]
      else
        checkModifiers (· == .readonly) ms
        pure full) fun t => [t] := by
  refine .ite (.pure rfl) (.ite (.quiet (quiet_checkModifiers _ _) fun _ => ?_)
    (.quiet (quiet_checkModifiers _ _) fun _ => .pure rfl))
  dsimp only
  split
  · exact .finish rfl fun _ => trivial
  · exact .quiet quiet_flaw fun _ => .finish rfl fun _ => trivial

theorem reads_plainParameter (hrec : ReadsGoals text rec) (ctx : Context) (owner : ParameterOwner) :
    Reads text (plainParameter rec ctx owner) := by
  intro lo
  refine .quiet quiet_here fun start => .quiet (quiet_modifiers _) fun ms => .quiet (quiet_eatPunct _) fun _ => .ite ?_ ?_
  · exact .quiet (quiet_flawIf _) fun _ => reads_restParameter hrec ctx start lo
  · refine .read (hrec _ rfl) fun p => .types (.quiet (.pure _) fun optional => .quiet quiet_typeAnnotation fun _ => ?_)
    refine .quiet (quiet_eatPunct _) fun _ => .ite ?_ ?_
    · refine .quiet (quiet_flawIf _) fun _ => .read (hrec _ rfl) fun value => ?_
      exact .seq (.finish rfl fun _ => trivial) (gathers_declaredParameter ms owner p.label start)
    · exact .seq (.pure rfl) (gathers_declaredParameter ms owner p.label start)

theorem reads_parameter (hrec : ReadsGoals text rec) (ctx : Context) (owner : ParameterOwner) :
    Reads text (parameter rec ctx owner) := by
  intro lo
  refine .quiet quiet_here fun start => .read (reads_decorators hrec ctx) fun ds => .ite ?_ ?_
  · exact .drop (List.nil_sublist _) (reads_plainParameter hrec ctx owner lo)
  · have hrest : Gathers text lo [ds] (do
        let p ← plainParameter rec ctx owner
        finish .decoratedParam start [ds, p]) fun t => [t] :=
      .read (reads_plainParameter hrec ctx owner) fun p => .finish rfl fun _ => trivial
    exact .quiet (quiet_atPunct _) fun _ => .ite (.quiet .reject fun _ => hrest) hrest

theorem reads_parameters (hrec : ReadsGoals text rec) (ctx : Context) (owner : ParameterOwner) :
    Reads text (parameters rec ctx owner) := by
  intro lo
  refine .quiet quiet_here fun start => .quiet (quiet_expectPunct _) fun _ => .types (.quiet (quiet_atWord _) fun _ => ?_)
  refine .bind (.commaList (reads_parameter hrec ctx owner) _) fun items => ?_
  exact .quiet (quiet_expectPunct _) fun _ => .finish rfl fun _ => trivial

end LiveNotes.Script
