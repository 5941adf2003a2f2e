import LiveNotes.Proofs.Script.Grammar.Words
import LiveNotes.Script.Grammar.Literal

/-! Functions, classes and their members as trees of leaves. -/

namespace LiveNotes.Script

open Parse Grammar

variable {text : List Char} {lo : Nat} {rec : Readers}

/-! ### Statements in braces -/

/-- A directive has no leaves. -/
theorem Spaced.directive {hi : Nat} {chars : List Char} {t d : Tree} (h : directive? chars t = some d) :
    Spaced text lo hi [d] := by
  unfold directive? at h
  split at h
  · obtain rfl := by simpa using h
    exact Spaced.nil.node rfl trivial
  · simp at h

theorem Gives.bodyStatement (hrec : ReadsGoals text rec) (ctx : Context) (inFront : Bool) :
    Gives text (bodyStatement rec ctx inFront) fun found => [found.1] := by
  intro lo
  refine .quiet quiet_get fun c => .read (hrec _ rfl) fun t => ?_
  split
  next d hd => exact .pureWith fun stop _ => .directive hd
  next => exact .pure rfl

theorem Gives.bodyStatements (hrec : ReadsGoals text rec) (ctx : Context) (closes : TokenKind → Bool) :
    Gives text (bodyStatements rec ctx closes) fun found => found := by
  intro lo
  refine .seq (Gathers.loop (fun found : List Tree × Bool => found.1.reverse) (fun found => ?_) ([], true))
    fun found => .pure rfl
  refine .quiet quiet_kind fun k => .ite (.pure rfl) ?_
  exact .bind (.bodyStatement hrec ctx found.2) fun t => .pure (by simp)

theorem Gives.statementsInBraces (hrec : ReadsGoals text rec) (ctx : Context) :
    Gives text (statementsInBraces rec ctx) fun found => found := by
  refine .many fun lo => .quiet (quiet_atPunct _) fun _ => .ite (.pure rfl) ?_
  exact .read (hrec _ rfl) fun t => .pure rfl

/-! ### Functions -/

theorem reads_functionBody (hrec : ReadsGoals text rec) (ctx : Context) : Reads text (functionBody rec ctx) := by
  intro lo
  refine .quiet quiet_here fun start => .quiet (quiet_expectPunct _) fun _ => ?_
  refine .bind (.bodyStatements hrec ctx _) fun ss => .quiet (quiet_expectPunct _) fun _ => ?_
  exact .finish rfl fun _ => trivial

@[simp] theorem quiet_resultAnnotation : Quiet text ( resultAnnotation rec) :=
  .types ((quiet_eatPunct _).bind fun _ => .pure _)

/-- Without types, no function lacks its body. -/
theorem Gives.functionRest (hrec : ReadsGoals text rec) (ambient : Bool) (owner : ParameterOwner)
    (isAsync isGenerator : Bool) :
    Gives text (functionRest rec ambient owner isAsync isGenerator) fun f => f.1 :: f.2.toList := by
  intro lo
  refine .types (.read (reads_parameters hrec _ owner) fun ps => .quiet quiet_resultAnnotation fun _ => .types ?_)
  refine .quiet (quiet_atPunct _) fun _ => .quiet quiet_canEndStatement fun _ => ?_
  exact .quiet (quiet_flawIf _) fun _ => .read (reads_functionBody hrec _) fun body => .pure rfl

theorem takes_functionExpression (hrec : ReadsGoals text rec) (start : Nat) (isAsync : Bool) :
    Takes text (functionExpression rec start isAsync) := by
  refine .expectWord fun lo => .quiet (quiet_eatPunct _) fun isGenerator => .quiet quiet_kind fun k => ?_
  refine .ite (.read (reads_bindingName _) fun name => ?_) (.read reads_hole fun name => ?_)
  all_goals
    refine .bind (.functionRest hrec false .plain isAsync isGenerator) fun rest => ?_
    obtain ⟨ps, body⟩ := rest
    cases body with
    | none => exact .reject
    | some b => exact .finish rfl fun _ => trivial

theorem takes_functionDeclaration (hrec : ReadsGoals text rec) (ctx : Context) (start : Nat)
    (isAsync nameless : Bool) : Takes text (functionDeclaration rec ctx start isAsync nameless) := by
  refine .expectWord fun lo => .quiet (quiet_eatPunct _) fun isGenerator => ?_
  refine .quiet (quiet_atPunct _) fun _ => .quiet (quiet_atPunct _) fun _ => ?_
  refine .ite (.read reads_hole fun name => ?_) (.read (reads_bindingName _) fun name => ?_)
  all_goals
    refine .bind (.functionRest hrec ctx.ambient .plain isAsync isGenerator) fun rest => ?_
    obtain ⟨ps, body⟩ := rest
    cases body with
    | none => exact .drop (List.nil_sublist _) (.finish rfl fun _ => trivial)
    | some b => exact .finish rfl fun _ => trivial

theorem Gives.methodFunction (hrec : ReadsGoals text rec) (ambient : Bool) (owner : ParameterOwner)
    (isAsync isGenerator : Bool) :
    Gives text (methodFunction rec ambient owner isAsync isGenerator) Option.toList := by
  intro lo
  refine .quiet quiet_here fun start => .bind (.functionRest hrec ambient owner isAsync isGenerator) fun ⟨ps, body⟩ => ?_
  cases body with
  | none => exact .drop (List.nil_sublist _) (.pure rfl)
  | some b =>
    refine .before (fun stop h => h.withHole start) ?_
    exact .seq (.finish rfl fun _ => trivial) fun t => .pure rfl

/-! ### Members -/

@[simp] theorem quiet_accessorWord (w : String) : Quiet text (accessorWord w) := by
  refine (quiet_atWord w).bind fun _ => .ite ?_ (.pure _)
  refine quiet_nextToken.bind fun next => .ite ?_ (.pure _)
  exact quiet_advance.bind fun _ => .pure _

@[simp] theorem quiet_accessorKind? : Quiet text accessorKind? := by
  refine (quiet_accessorWord _).bind fun _ => .ite (.pure _) ?_
  exact (quiet_accessorWord _).bind fun _ => .ite (.pure _) (.pure _)

@[simp] theorem quiet_statesResult : Quiet text (statesResult rec) := .types (.pure _)

theorem Gives.memberKey (hrec : ReadsGoals text rec) (ctx : Context) (h : MemberHead) :
    Gives text (memberKey rec ctx h) fun key => [key.1] := by
  intro lo
  refine .bind (.propertyKey hrec ctx) fun ⟨key, computed⟩ => ?_
  dsimp only
  split <;> exact .quiet (quiet_flawIf _) fun _ => .pure rfl

theorem reads_describedMember (start : Nat) : Reads text (describedMember start) :=
  fun _ => .finish rfl fun _ => trivial

/-- The member with the given decorators in front and key. -/
theorem Gathers.member {label : Label} {start : Nat} {key value ds : Tree} (hinner : label.isInner = true)
    (hfits : ∀ span ks, Fits text label span ks) :
    Gathers text lo [ds, key, value] (Parse.finish label start [key, value, ds]) fun t => [t] :=
  .perm (List.perm_append_singleton ds [key, value]) (.finish hinner fun _ => hfits _ _)

theorem gathers_method (hrec : ReadsGoals text rec) (h : MemberHead) (kind : MethodKind) (key : Tree)
    (computed isGenerator : Bool) :
    Gathers text lo [h.decorators, key] (method rec h kind key computed isGenerator) fun t => [t] := by
  refine .quiet (quiet_checkModifiers _ _) fun _ =>
    .types (.ite (.quiet quiet_statesResult fun _ => .quiet (quiet_flawIf _) fun _ => ?_) ?_)
  all_goals
    refine .quiet (quiet_flawIf _) fun _ => .bind (.methodFunction hrec _ _ _ _) fun found => ?_
    cases found with
    | none => exact .quiet (quiet_flawIf _) fun _ => .drop (List.nil_sublist _) (reads_describedMember _ lo)
    | some f => exact .quiet (quiet_flawIf _) fun _ => .member rfl fun _ _ => trivial

theorem gathers_constructorMember (hrec : ReadsGoals text rec) (h : MemberHead) (key : Tree) :
    Gathers text lo [h.decorators, key] (constructorMember rec h key) fun t => [t] := by
  refine .quiet (quiet_checkModifiers _ _) fun _ => .quiet (quiet_atPunct _) fun _ => ?_
  refine .quiet quiet_statesResult fun _ => ?_
  refine .quiet (quiet_flawIf _) fun _ => .bind (.methodFunction hrec _ _ _ _) fun found => ?_
  cases found with
  | none => exact .drop (List.nil_sublist _) (reads_describedMember _ lo)
  | some f => exact .member rfl fun _ _ => trivial

theorem gathers_fieldMember (hrec : ReadsGoals text rec) (h : MemberHead) (key : Tree) (computed : Bool) :
    Gathers text lo [h.decorators, key] (fieldMember rec h key computed) fun t => [t] := by
  have hrest : ∀ value, Gathers text lo [h.decorators, key, value] (do
      endStatement
      flawIf (!computed && keyText? key == some "constructor")
      flawIf (h.isAbstract && !value.isHole)
      if h.isAbstract || h.modifiers.contains .declare then describedMember h.start
      else
        let label := if h.modifiers.contains .accessor then Label.accessor h.isStatic computed
          else .field h.isStatic computed
        finish label h.start [key, value, h.decorators]) fun t => [t] := by
    intro value
    refine .quiet quiet_endStatement fun _ => .quiet (quiet_flawIf _) fun _ => .quiet (quiet_flawIf _) fun _ => .ite ?_ ?_
    · exact .drop (List.nil_sublist _) (reads_describedMember _ lo)
    · dsimp only
      split <;> exact .member rfl fun _ _ => trivial
  refine .quiet (quiet_checkModifiers _ _) fun _ =>
    .types (.quiet (quiet_atPunct _) fun _ => .quiet quiet_onNewLine fun _ => ?_)
  refine .quiet quiet_typeAnnotation fun _ => .quiet (quiet_eatPunct _) fun _ => .ite ?_ (.read reads_hole hrest)
  exact .read (reads_expression hrec _) hrest

theorem gathers_keyedMember (hrec : ReadsGoals text rec) (ctx : Context) (h : MemberHead) :
    Gathers text lo [h.decorators] (keyedMember rec ctx h) fun t => [t] := by
  refine .quiet quiet_accessorKind? fun kind? => ?_
  split
  · exact .bind (.memberKey hrec ctx h) fun ⟨key, computed⟩ => gathers_method hrec h _ key computed false
  · refine .quiet (quiet_eatPunct _) fun star => .bind (.memberKey hrec ctx h) fun ⟨key, computed⟩ => ?_
    refine .types (.quiet (quiet_atPunct _) fun _ => .quiet (quiet_atPunct _) fun _ => .ite ?_ ?_)
    · exact gathers_constructorMember hrec h key
    · refine .quiet (.pure _) fun optional => .quiet (quiet_atPunct _) fun _ => ?_
      refine .quiet (quiet_atPunct _) fun _ => .ite ?_ ?_
      · exact gathers_method hrec h .method key computed star
      · exact gathers_fieldMember hrec h key computed

theorem reads_staticBlock (hrec : ReadsGoals text rec) (h : MemberHead) : Reads text (staticBlock rec h) := by
  intro lo
  refine .quiet (quiet_flawIf _) fun _ => .quiet (quiet_expectWord _) fun _ => .quiet (quiet_expectPunct _) fun _ => ?_
  refine .bind (.statementsInBraces hrec _) fun ss => .quiet (quiet_expectPunct _) fun _ => ?_
  exact .finish rfl fun _ => trivial

theorem Gives.classMember (hrec : ReadsGoals text rec) (ctx : Context) :
    Gives text (classMember rec ctx) Option.toList := by
  intro lo
  refine .quiet quiet_here fun start => .read (reads_decorators hrec ctx) fun ds => ?_
  refine .quiet (quiet_modifiers _) fun ms => ?_
  refine .quiet (quiet_atWord _) fun _ => .quiet quiet_nextToken fun next => .ite ?_ (.types ?_)
  · exact .drop (List.nil_sublist _) (.read (reads_staticBlock hrec _) fun t => .pure rfl)
  · refine .quiet (quiet_atPunct _) fun _ => .quiet (quiet_looksLike _) fun _ => ?_
    exact .seq (gathers_keyedMember hrec ctx ⟨start, ds, ms, _⟩) fun t => .pure rfl

/-! ### Classes -/

theorem reads_classBody (hrec : ReadsGoals text rec) (ctx : Context) : Reads text (classBody rec ctx) := by
  intro lo
  refine .quiet quiet_here fun start => .quiet (quiet_expectPunct _) fun _ => .bind (.many fun lo => ?_) fun members => ?_
  · refine .quiet ?_ fun _ => .quiet (quiet_atPunct _) fun _ => .ite (.pure rfl) (Gives.classMember hrec ctx lo)
    simp
  · exact .quiet (quiet_expectPunct _) fun _ => .finish rfl fun _ => trivial

theorem reads_superclass (hrec : ReadsGoals text rec) (ctx : Context) : Reads text (superclass rec ctx) := by
  intro lo
  refine .quiet (quiet_eatWord _) fun _ => .ite ?_ (reads_hole lo)
  refine .read (hrec _ rfl) fun t => .types ?_
  simp only [Bool.false_eq_true, if_false]
  split
  · exact .pureWith fun _ hts => hts.kids rfl rfl
  · exact .pure rfl

/-- A class is a node of its name, what it extends, its body and the decorators read in front of it. -/
theorem exists_classTree {c c' : Cursor} {ctx : Context} {label : Label} {start : Nat} {ds t : Tree}
    (h : classTree rec ctx label start ds c = some (t, c')) :
    ∃ name super body, t = .node label ⟨start, c'.lastStop⟩ [name, super, body, ds] := by
  have hend {name super : Tree} {c : Cursor} (h : (do
      let body ← classBody rec ctx
      finish label start [name, super, body, ds] : Parse Tree) c = some (t, c')) :
      ∃ name super body, t = .node label ⟨start, c'.lastStop⟩ [name, super, body, ds] := by
    obtain ⟨body, _, -, h⟩ := run_bind_eq_some h
    obtain ⟨rfl, rfl⟩ := by simpa using h
    exact ⟨name, super, body, rfl⟩
  have hrest {types : Bool} {name : Tree} {c : Cursor} (h : (do
      if types then typeParameters rec
      let super ← superclass rec ctx
      if types then
        if ← eatWord "implements" then heritageTypes rec
      let body ← classBody rec ctx
      finish label start [name, super, body, ds] : Parse Tree) c = some (t, c')) :
      ∃ name super body, t = .node label ⟨start, c'.lastStop⟩ [name, super, body, ds] := by
    cases types with
    | false =>
      obtain ⟨super, _, -, h⟩ := run_bind_eq_some h
      exact hend h
    | true =>
      obtain ⟨_, _, -, h⟩ := run_bind_eq_some h
      obtain ⟨super, _, -, h⟩ := run_bind_eq_some h
      obtain ⟨_, _, -, h⟩ := run_bind_eq_some h
      split at h
      · obtain ⟨_, _, -, h⟩ := run_bind_eq_some h
        exact hend h
      · exact hend h
  obtain ⟨_, _, -, h⟩ := run_bind_eq_some h
  obtain ⟨types, _, -, h⟩ := run_bind_eq_some h
  obtain ⟨_, _, -, h⟩ := run_bind_eq_some h
  obtain ⟨_, _, -, h⟩ := run_bind_eq_some h
  dsimp only at h
  split at h
  all_goals
    obtain ⟨name, _, -, h⟩ := run_bind_eq_some h
    exact hrest h

/-- The word `class` is taken, and all that a class is made of but its decorators is read behind it. -/
theorem Gives.classTree (hrec : ReadsGoals text rec) (ctx : Context) (label : Label) (start : Nat) (ds : Tree) :
    Gives text (classTree rec ctx label start ds) (fun t => t.kids.dropLast) ∧
      Moves text (classTree rec ctx label start ds) fun _ => True := by
  have hrest (lo : Nat) (name : Tree) : Gathers text lo [name] (do
      let super ← superclass rec ctx
      let body ← classBody rec ctx
      finish label start [name, super, body, ds]) fun t => t.kids.dropLast := by
    refine .read (reads_superclass hrec ctx) fun super => .read (reads_classBody hrec ctx) fun body => ?_
    intro c t c' hc hlo hts h
    obtain ⟨rfl, rfl⟩ := by simpa using h
    exact ⟨.refl hc, hts⟩
  refine ⟨fun lo => .quiet (quiet_expectWord _) fun _ => ?_, .atOnce (moves_expectWord _) (quiet_expectWord _) fun _ =>
    Gives.quiet (fun lo => ?_ : Gives text _ fun t : Tree => t.kids.dropLast)⟩
  all_goals
    refine .types (.quiet quiet_kind fun _ => .quiet (quiet_atWord _) fun _ => ?_)
    exact .ite (.read (reads_bindingName _) (hrest lo)) (.read reads_hole (hrest lo))

theorem gathers_classTree (hrec : ReadsGoals text rec) (ctx : Context) (label : Label)
    (hinner : label.isInner = true) (hfits : ∀ span a b c d, Fits text label span [a, b, c, d]) (start : Nat) (ds : Tree) :
    Gathers text lo [ds] (classTree rec ctx label start ds) fun t => [t] := by
  intro c t c' hc hlo hts h
  obtain ⟨hmove, hparts⟩ := Gathers.frame (Gives.classTree hrec ctx label start ds).1 hc hlo hts h
  obtain ⟨name, super, body, rfl⟩ := exists_classTree h
  have hkids : Spaced text lo c'.lastStop [name, super, body, ds] :=
    hparts.perm (List.perm_append_singleton ds [name, super, body])
  exact ⟨hmove, hkids.node hinner (hfits _ _ _ _ _)⟩

end LiveNotes.Script
