import LiveNotes.Proofs.Script.Grammar.Functions
import LiveNotes.Script.Grammar.Access

/-! Literals, templates, objects, accesses and calls as trees of leaves. -/

namespace LiveNotes.Script

open Parse Grammar

variable {text : List Char} {lo hi : Nat} {rec : Readers} {c c' : Cursor}

/-! ### Regular expressions and templates -/

/-- A regular expression takes more than the current token, which is its first slash. -/
theorem regex_gives (hc : Ready text c) {mark : Punct} (hk : c.token.kind = .punct mark)
    (hmark : mark = .slash ∨ mark = .slashAssign) {t : Tree} (h : regex c = some (t, c')) :
    Onward text c c' ∧ Spaced text c.token.span.start c'.lastStop [t] ∧ c.token.span.start ≤ c'.lastStop := by
  obtain ⟨start, c₁, hhere, h⟩ := run_bind_eq_some h
  obtain ⟨rfl, rfl⟩ := by simpa using hhere
  obtain ⟨s, c₁, hget, h⟩ := run_bind_eq_some h
  obtain ⟨rfl, rfl⟩ := by simpa using hget
  cases hbody : readRegexBody (c.start.skip 1) with
  | none => simp [hbody, reject] at h
  | some r =>
    obtain ⟨body, after⟩ := r
    simp only [hbody] at h
    obtain ⟨_, c₁, hflaw, h⟩ := run_bind_eq_some h
    obtain ⟨_, c₂, hadvance, h⟩ := run_bind_eq_some h
    obtain ⟨rfl, rfl⟩ := by simpa using h
    obtain ⟨rest, hrest⟩ : ∃ rest, c.start.rest = '/' :: rest := by
      obtain ⟨n, hn⟩ := hc.mark mark hk
      exact exists_slash hn hmark
    have hplace : c.start.Reaches (after.takeWhile isIdentifierPart).2 :=
      (Place.reaches_skip ['/'] hrest rfl).trans ((reaches_readRegexBody hbody).trans (Place.reaches_takeWhile _ _))
    have hmove := quiet_flawIf _ hc hflaw
    rw [← (flawIf_keeps hflaw).1] at hplace
    obtain ⟨hmore, hstop⟩ := hmove.ready.advanceFrom hplace hadvance
    have hle : c.token.span.start ≤ c₂.lastStop := by
      rw [hstop]
      refine Nat.le_trans hmove.here ?_
      rw [hmove.ready.span]
      exact hplace.le
    exact ⟨hmove.trans hmore, .leaf rfl (regular_leaf rfl rfl) hc.here hmore.ready.lastStop hle, hle⟩

/-- Where the parts of a template stand while they are read. -/
structure Templates (text : List Char) (lo : Nat) (s : TemplateState) (c : Cursor) : Prop where
  ready : Ready text c
  place : c.start.Reaches s.place
  le : lo ≤ c.token.span.start
  parts : Spaced text lo s.place.pos s.parts.reverse

theorem templates_step {tagged : Bool} {item : Parse Tree} (hitem : Reads text item) {s : TemplateState}
    {next? : Option TemplateState} (hs : Templates text lo s c) (h : templateStep tagged item s c = some (next?, c')) :
    Onward text c c' ∧ Templates text lo (next?.getD s) c' := by
  rw [templateStep] at h
  split at h
  · obtain ⟨rfl, rfl⟩ := by simpa using h
    exact ⟨.refl hs.ready, hs⟩
  · obtain ⟨_, c₁, hget, h⟩ := run_bind_eq_some h
    obtain ⟨rfl, rfl⟩ := by simpa using hget
    cases hquasi : readQuasi (c.size + 1) [] s.place with
    | none => simp [hquasi, reject] at h
    | some r =>
      obtain ⟨raw, ended, after⟩ := r
      obtain ⟨stop, hbefore, hafter, hpos⟩ := reaches_readQuasi hquasi
      simp only [hquasi] at h
      let quasi := Tree.node (.quasi (String.ofList raw)) ⟨s.place.pos, after.pos - if ended then 1 else 2⟩ []
      have hquasi : Spaced text lo after.pos (quasi :: s.parts).reverse := by
        have hplace := hs.ready.start.trans hs.place
        have hleaf : Spaced text s.place.pos (after.pos - if ended then 1 else 2) [quasi] :=
          .leaf rfl (regular_leaf rfl rfl) ⟨_, hplace, rfl⟩ ⟨_, hplace.trans hbefore, hpos⟩ (hpos ▸ hbefore.le)
        have hlo : lo ≤ s.place.pos := Nat.le_trans hs.le (by rw [hs.ready.span]; exact hs.place.le)
        rw [List.reverse_cons]
        exact hs.parts.append (hleaf.weaken (Nat.le_refl _) (Nat.sub_le _ _)) (Nat.le_refl _) hlo
          (hbefore.trans hafter).le
      obtain ⟨c₁, hmove, hstart, hrest⟩ : ∃ c₁, Onward text c c₁ ∧ c₁.start = c.start ∧
          (if ended then pure (some ⟨quasi :: s.parts, after, true⟩)
          else do
            advanceFrom after
            let e ← item
            unless ← atPunct .rightBrace do reject
            pure (some ⟨e :: quasi :: s.parts, (← get).after, false⟩) : Parse (Option TemplateState)) c₁ =
            some (next?, c') := by
        cases tagged with
        | true => exact ⟨c, .refl hs.ready, rfl, h⟩
        | false =>
          obtain ⟨_, c₁, hflaw, h⟩ := run_bind_eq_some h
          exact ⟨c₁, quiet_flawIf _ hs.ready hflaw, (flawIf_keeps hflaw).1, h⟩
      have hafter : c₁.start.Reaches after := by
        rw [hstart]
        exact hs.place.trans (hbefore.trans hafter)
      split at hrest
      · obtain ⟨rfl, rfl⟩ := by simpa using hrest
        exact ⟨hmove, hmove.ready, hafter, Nat.le_trans hs.le hmove.here, hquasi⟩
      · obtain ⟨_, c₂, hadvance, hrest⟩ := run_bind_eq_some hrest
        obtain ⟨hmore, hstop⟩ := hmove.ready.advanceFrom hafter hadvance
        obtain ⟨e, c₃, he, hrest⟩ := run_bind_eq_some hrest
        rw [← hstop] at hquasi
        have hfar := hmove.trans hmore
        obtain ⟨hlast, hparts⟩ := (Gathers.frame hitem).run hfar hs.le hquasi he
        obtain ⟨b, c₄, hat, hrest⟩ := run_bind_eq_some hrest
        obtain ⟨rfl, rfl⟩ := by simpa using hat
        split at hrest
        · obtain ⟨rfl, rfl⟩ := by simpa using hrest
          have hready := hlast.ready
          refine ⟨hlast, hready, hready.after, Nat.le_trans hs.le hlast.here, ?_⟩
          rw [Option.getD_some, List.reverse_cons]
          refine hparts.weaken (Nat.le_refl _) (Nat.le_trans hready.lastStop_le ?_)
          rw [hready.span]
          exact hready.after.le
        · simp [reject] at hrest

/-- A template takes the token where it starts, which is its first backtick. -/
theorem templateParts_gives {tagged : Bool} {item : Parse Tree} (hitem : Reads text item) {parts : List Tree}
    (hc : Ready text c) (hlo : lo ≤ c.token.span.start) (h : templateParts tagged item c = some (parts, c')) :
    Onward text c c' ∧ Spaced text lo c'.lastStop parts ∧ c.token.span.start ≤ c'.lastStop := by
  obtain ⟨_, c₁, hat, h⟩ := run_bind_eq_some h
  obtain ⟨rfl, rfl⟩ := by simpa using hat
  split at h
  · obtain ⟨_, c₁, hget, h⟩ := run_bind_eq_some h
    obtain ⟨rfl, rfl⟩ := by simpa using hget
    obtain ⟨s, c₁, hloop, h⟩ := run_bind_eq_some h
    obtain ⟨_, c₂, hadvance, h⟩ := run_bind_eq_some h
    obtain ⟨rfl, rfl⟩ := by simpa using h
    have hfirst : Templates text lo { place := c.after } c := ⟨hc, hc.after, hlo, .nil⟩
    obtain ⟨hmove, hs⟩ := loop_invariant (fun s c' => Onward text c c' ∧ Templates text lo s c')
      (fun s c₁ c₂ hs hstop => (templates_step hitem hs.2 hstop).imp_left hs.1.trans)
      (fun s s' c₁ c₂ hs hstep => (templates_step hitem hs.2 hstep).imp_left hs.1.trans)
      ⟨.refl hc, hfirst⟩ hloop
    obtain ⟨hmore, hstop⟩ := hmove.ready.advanceFrom hs.place hadvance
    rw [hstop]
    refine ⟨hmove.trans hmore, hs.parts, Nat.le_trans hmove.here ?_⟩
    rw [hmove.ready.span]
    exact hs.place.le
  · simp [reject] at h

theorem Gives.templateParts {tagged : Bool} {item : Parse Tree} (hitem : Reads text item) :
    Gives text (templateParts tagged item) fun parts => parts := fun _ _ _ _ hc hlo _ h =>
  (templateParts_gives hitem hc hlo h).imp_right And.left

theorem takes_template (hrec : ReadsGoals text rec) (ctx : Context) (tagged : Bool) :
    Takes text (template rec ctx tagged) := by
  have hparts : Gives text (templateParts tagged (expression rec ctx.inside)) fun parts => parts :=
    .templateParts (reads_expression hrec _)
  refine .behind quiet_here fun start => ⟨fun lo => .bind hparts fun parts => .finish rfl fun _ => trivial, ?_⟩
  refine .atOnce (fun c parts c' hc h _ => ?_) hparts.quiet fun parts => quiet_finish _ _ _
  exact (templateParts_gives (reads_expression hrec _) hc (Nat.le_refl _) h).2.2

/-! ### Arrays and objects -/

theorem reads_spreadOr (hrec : ReadsGoals text rec) (ctx : Context) : Reads text (spreadOr rec ctx) := by
  intro lo
  refine .quiet quiet_here fun start => .quiet (quiet_eatPunct _) fun _ => .ite ?_ (hrec _ rfl lo)
  exact .read (hrec _ rfl) fun e => .finish rfl fun _ => trivial

theorem takes_arrayLiteral (hrec : ReadsGoals text rec) (ctx : Context) : Takes text (arrayLiteral rec ctx) := by
  refine .behind quiet_here fun start => .expectPunct fun lo => ?_
  refine .bind
    (.commaEnded (fun lo => .quiet (quiet_atPunct _) fun _ => .ite (reads_hole lo) (reads_spreadOr hrec ctx lo)) _)
    fun ⟨items, comma⟩ => ?_
  exact .quiet (quiet_expectPunct _) fun _ => .finish rfl fun _ => trivial

@[simp] theorem quiet_propertyHead : Quiet text propertyHead := by
  refine quiet_here.bind fun start => quiet_accessorKind?.bind fun kind? => ?_
  split
  · exact .pure _
  · exact .pure _
  · have hrest : ∀ next : Option Token, Quiet text (do
        let isAsync := next.any fun t => !t.newline && canFollowModifier t.kind
        if isAsync then advance
        let isGenerator ← eatPunct .star
        pure ({ start, kind := if isAsync || isGenerator then .method else .value, isAsync, isGenerator } :
          PropertyHead)) := fun next => .ite (by simp) (by simp)
    refine (quiet_atWord _).bind fun _ => .ite ?_ ((Quiet.pure _).bind hrest)
    exact quiet_nextToken.map.bind hrest

theorem gathers_objectMethod (hrec : ReadsGoals text rec) (h : PropertyHead) (key : Tree) (computed : Bool) :
    Gathers text lo [key] (objectMethod rec h key computed) fun t => [t] := by
  refine .types (.ite (.quiet quiet_statesResult fun _ => .quiet (quiet_flawIf _) fun _ => ?_) ?_)
  all_goals
    refine .bind (.methodFunction hrec _ _ _ _) fun found => ?_
    cases found with
    | none => exact .reject
    | some f =>
      dsimp only
      split
      · exact .quiet (quiet_flawIf _) fun _ => .finish rfl fun _ => trivial
      · exact .quiet (quiet_flawIf _) fun _ => .finish rfl fun _ => trivial
      · exact .finish rfl fun _ => trivial

theorem reads_property (hrec : ReadsGoals text rec) (ctx : Context) : Reads text (property rec ctx) := by
  intro lo
  refine .quiet quiet_here fun start => .quiet (quiet_atPunct _) fun _ => .ite (reads_spreadOr hrec ctx lo) ?_
  refine .quiet quiet_propertyHead fun head => ?_
  intro c t c'' hc hlo hts h
  obtain ⟨atName, c₁, hat, h⟩ := run_bind_eq_some h
  obtain ⟨rfl, rfl⟩ : isIdentifier c.token.kind = atName ∧ c = c₁ := by simpa [atIdentifier] using hat
  obtain ⟨⟨key, computed⟩, c₁, hkey, h⟩ := run_bind_eq_some h
  obtain ⟨hmove, hmade⟩ := (propertyKey_gives hrec hc hkey).1
  have hmade := hmade.weaken hlo (Nat.le_refl _)
  have hvalue : Gathers text lo [key] (do
      let value ← rec (.assignment ctx.inside)
      finish (.property .value computed false) start [key, value]) fun t => [t] :=
    .read (hrec _ rfl) fun value => .finish rfl fun _ => trivial
  cases hname : isIdentifier c.token.kind with
  | false =>
    rw [hname] at h
    have hrest : Gathers text lo [key] (do
        if (← atPunct .leftParen) || ((← typesAllowed) && (← atPunct .less)) then
          objectMethod rec head key computed
        else if head.kind != .value then reject
        else if ← eatPunct .colon then
          let value ← rec (.assignment ctx.inside)
          finish (.property .value computed false) start [key, value]
        else reject) fun t => [t] :=
      .quiet (quiet_atPunct _) fun _ => .types (.quiet (quiet_atPunct _) fun _ =>
        .ite (gathers_objectMethod hrec head key computed)
          (.ite .reject (.quiet (quiet_eatPunct _) fun _ => .ite hvalue .reject)))
    refine Gathers.runTree ?_ hmove hlo hmade h
    dsimp only
    split
    · exact .quiet .reject fun _ => hrest
    · exact hrest
  | true =>
    obtain ⟨w, rfl, hstop, hspells⟩ := exists_name_of_atIdentifier hrec hc hname hkey
    rw [hname] at h
    obtain ⟨_, c₂, hat, h⟩ := run_bind_eq_some h
    obtain ⟨rfl, rfl⟩ := by simpa using hat
    obtain ⟨_, c₂, htypes, h⟩ := run_bind_eq_some h
    obtain ⟨rfl, rfl⟩ := by simpa using htypes
    obtain ⟨_, c₂, hat, h⟩ := run_bind_eq_some h
    obtain ⟨rfl, rfl⟩ := by simpa using hat
    split at h
    · exact (gathers_objectMethod hrec head _ computed).runTree hmove hlo hmade h
    · split at h
      · simp [reject] at h
      · obtain ⟨_, c₂, heat, h⟩ := run_bind_eq_some h
        rw [run_eatPunct, Option.some_inj, Prod.mk.injEq] at heat
        obtain ⟨rfl, rfl⟩ := heat
        split at h
        · have hnext := hmove.trans hmove.ready.next
          exact hvalue.run hnext hlo (hmade.weaken (Nat.le_refl _) hmove.ready.next.lastStop) h
        · have hread : Spaced text lo c₁.lastStop [.node (.read w) c.token.span []] := by
            rw [hstop]
            exact (hc.leaf rfl (regular_identifier rfl hspells)).weaken hlo (Nat.le_refl _)
          exact And.imp_left hmove.trans
            (shorthand_gives hrec .property hspells hmove.ready hstop (Nat.le_trans hlo hmove.here) hread h)

theorem takes_objectLiteral (hrec : ReadsGoals text rec) (ctx : Context) : Takes text (objectLiteral rec ctx) := by
  refine .behind quiet_here fun start => .expectPunct fun lo => ?_
  refine .bind (.commaEnded (reads_property hrec ctx) _) fun ⟨props, comma⟩ => ?_
  exact .quiet (quiet_expectPunct _) fun _ => .finish rfl fun _ => trivial

/-! ### Parentheses -/

theorem spaced_enclose {t : Tree} (h : Spaced text lo hi [t]) : Spaced text lo hi [enclose t] := by
  unfold enclose
  split
  · exact h.relabel rfl rfl rfl trivial
  · exact h.relabel rfl rfl rfl (h.regular _ (List.mem_singleton_self _)).fits
  · exact h

theorem takes_parenthesized (hrec : ReadsGoals text rec) (ctx : Context) : Takes text (parenthesized rec ctx) := by
  refine .behind quiet_here fun start => .expectPunct fun lo => .read (reads_expression hrec _) fun e => ?_
  refine .quiet (quiet_expectPunct _) fun _ => .finishWith fun span stop hts => ?_
  exact (spaced_enclose hts).node rfl trivial

theorem reads_inParens (hrec : ReadsGoals text rec) (ctx : Context) : Reads text (inParens rec ctx) := by
  intro lo
  refine .quiet (quiet_expectPunct _) fun _ => .read (reads_expression hrec _) fun e => ?_
  exact .quiet (quiet_expectPunct _) fun _ => .pure rfl

/-! ### Accesses and calls -/

theorem Gives.arguments (hrec : ReadsGoals text rec) (ctx : Context) :
    Gives text (arguments rec ctx) fun args => args := by
  intro lo
  refine .quiet (quiet_expectPunct _) fun _ => .bind (.commaList (reads_spreadOr hrec ctx) _) fun items => ?_
  exact .quiet (quiet_expectPunct _) fun _ => .pure rfl

theorem spaced_withoutArguments {t : Tree} {ts : List Tree} (h : Spaced text lo hi (t :: ts)) :
    Spaced text lo hi (withoutArguments t :: ts) := by
  unfold withoutArguments
  split
  · refine h.replace (fun hregular => hregular.kids _ (List.mem_singleton_self _)) ?_ ?_
    · rw [marks_node rfl rfl, marksAll_singleton]
    · rw [calls_inner rfl, callsAll_singleton]
  · exact h

theorem gathers_callOf (hrec : ReadsGoals text rec) (ctx : Context) (start : Nat) (callee : Tree) (optional : Bool) :
    Gathers text lo [callee] (callOf rec ctx start callee optional) fun t => [t] := by
  refine .bind (.arguments hrec ctx) fun args => .finishWith fun span stop hts => ?_
  exact (spaced_withoutArguments hts).node rfl trivial

theorem takes_newExpression (hrec : ReadsGoals text rec) (ctx : Context) : Takes text (newExpression rec ctx) := by
  refine .starts fun start hstart => .expectWord (.quiet (quiet_eatPunct _) fun _ => .ite ?_ (.of_gathers ?_))
  · exact .quiet (quiet_expectWord _) fun _ => .finish hstart rfl fun _ => regular_leaf rfl rfl
  · refine .read (hrec _ rfl) fun callee => .quiet (quiet_atPunct _) fun _ => .ite .rejectBind ?_
    have hfinish : ∀ args, Gathers text start (callee :: args)
        (finish (.new false) start (withoutArguments callee :: args)) fun t => [t] := fun args =>
      .finishWith fun span stop hts => (spaced_withoutArguments hts).node rfl trivial
    dsimp only
    split
    · exact .reject
    · refine .quiet (quiet_atPunct _) fun _ => .ite ?_ ?_
      · exact .bind (.arguments hrec ctx) hfinish
      · exact .seq (.pure rfl) hfinish

/-- A call that imports, from its parenthesis on; `start` is the place of the word in front. -/
theorem importCall_gives (hrec : ReadsGoals text rec) {ctx : Context} {start : Nat} {phase : ImportPhase} {t : Tree}
    (hc : Ready text c) (hstart : IsPlace text start) (hlt : start < c.lastStop)
    (h : importCall rec ctx start phase c = some (t, c')) : Onward text c c' ∧ Spaced text start c'.lastStop [t] := by
  obtain ⟨_, c₁, hopen, h⟩ := run_bind_eq_some h
  obtain ⟨args, c₂, hargs, h⟩ := run_bind_eq_some h
  have hmove := quiet_expectPunct _ hc hopen
  -- the arguments stand behind the parenthesis, and so in the call
  have hopened : start < c₁.token.span.start :=
    Nat.lt_of_lt_of_le hlt (Nat.le_trans hmove.lastStop hmove.ready.lastStop_le)
  obtain ⟨hlast, hargs⟩ := Gives.commaList (hrec _ rfl) _ _ hmove.ready (Nat.le_refl _) .nil hargs
  have hrest {c₂ : Cursor} (hlast : Onward text c c₂) (hargs : Spaced text c₁.token.span.start c₂.lastStop args) (h : (do
      expectPunct .rightParen
      finish (.importCall phase) start args : Parse Tree) c₂ = some (t, c')) :
      Onward text c c' ∧ Spaced text start c'.lastStop [t] := by
    obtain ⟨_, c₃, hclose, h⟩ := run_bind_eq_some h
    have hmore := quiet_expectPunct _ hlast.ready hclose
    obtain ⟨rfl, rfl⟩ := by simpa using h
    refine ⟨hlast.trans hmore, (hargs.weaken (Nat.le_refl _) hmore.lastStop).call ?_ hopened (Nat.le_refl _)⟩
    exact ⟨hstart, hmore.ready.lastStop, Nat.le_refl _,
      Nat.lt_of_lt_of_le hlt (Nat.le_trans hlast.lastStop hmore.lastStop), Nat.le_refl _⟩
  split at h
  · simp [reject] at h
  · exact hrest (hmove.trans hlast) hargs h

theorem takes_importExpression (hrec : ReadsGoals text rec) (ctx : Context) :
    Takes text (importExpression rec ctx) := by
  refine .starts fun start hstart c t c' hc hhere h => ?_
  obtain ⟨_, c₁, hword, h⟩ := run_bind_eq_some h
  have hat : c.token.kind = .word "import" false := by
    by_contra hne
    simp [Parse.expectWord, hne, Parse.reject] at hword
  obtain rfl : c.next = c₁ := by simpa [run_expectWord hat] using hword
  have hlt : start < c.next.lastStop := hhere ▸ hc.here_lt hat
  suffices Onward text c.next c' ∧ Spaced text start c'.lastStop [t] from
    ⟨hc.next.trans this.1, this.2, Nat.le_trans (Nat.le_of_lt hlt) this.1.lastStop⟩
  obtain ⟨dotted, c₂, hdot, h⟩ := run_bind_eq_some h
  have hmove := quiet_eatPunct _ hc.next.ready hdot
  have hlt₂ : start < c₂.lastStop := Nat.lt_of_lt_of_le hlt hmove.lastStop
  split at h
  · obtain ⟨w, c₃, hword, h⟩ := run_bind_eq_some h
    have hmore := quiet_wordText hmove.ready hword
    have hlt₃ : start < c₃.lastStop := Nat.lt_of_lt_of_le hlt₂ hmore.lastStop
    have hcall {phase : ImportPhase} (h : importCall rec ctx start phase c₃ = some (t, c')) :
        Onward text c.next c' ∧ Spaced text start c'.lastStop [t] :=
      (importCall_gives hrec hmore.ready hstart hlt₃ h).imp_left (hmove.trans hmore).trans
    split at h
    · obtain ⟨rfl, rfl⟩ := by simpa using h
      exact ⟨hmove.trans hmore, .leaf rfl (regular_leaf rfl rfl) hstart hmore.ready.lastStop (Nat.le_of_lt hlt₃)⟩
    · exact hcall h
    · exact hcall h
    · simp [reject] at h
  · exact (importCall_gives hrec hmove.ready hstart hlt₂ h).imp_left hmove.trans

/-- A word that is a literal. -/
theorem Starts.literal {start : Nat} {label : Label} (hstart : IsPlace text start) (hleaf : label.isLeaf = true)
    (hlabel : label.identifier? = none) :
    Starts text start (do Parse.advance; finish label start []) fun t => [t] :=
  .advance (.finish hstart hleaf fun _ => regular_leaf hleaf hlabel)

theorem Starts.identifier (start : Nat) (ctx : Context) {label : String → Label}
    (hlabel : ∀ w, (label w).identifier? = some w) (hleaf : ∀ w, (label w).isLeaf = true) :
    Starts text start (do
      let w ← identifierText ctx
      finish (label w) start []) fun t => [t] := by
  intro c t c' hc hstart h
  obtain ⟨w, c₁, hword, h⟩ := run_bind_eq_some h
  obtain ⟨rfl, rfl⟩ := by simpa using h
  subst hstart
  obtain ⟨hmove, hmade⟩ := leaf_identifier hc hword (hlabel w) (hleaf w)
  exact ⟨hmove, hmade, moves_identifierText ctx hc hword trivial⟩

/-- A class without decorators. -/
theorem takes_classTree (hrec : ReadsGoals text rec) (ctx : Context) (start : Nat) :
    Takes text (classTree rec ctx .classExpr start (.hole start)) where
  reads _ := .before (fun _ _ => .hole start) (gathers_classTree hrec ctx .classExpr rfl (fun _ _ _ _ _ => rfl) start _)
  moves := (Gives.classTree hrec ctx .classExpr start _).2

theorem takes_primaryWord (hrec : ReadsGoals text rec) (ctx : Context) (w : String) :
    Takes text (primaryWord rec ctx w) := by
  refine .starts fun start hstart => ?_
  split
  · exact .of_takes (takes_functionExpression hrec start false)
  · exact .of_takes (takes_classTree hrec ctx start)
  · exact .of_takes (takes_newExpression hrec ctx)
  · exact .of_takes (takes_importExpression hrec ctx)
  · exact .literal hstart rfl rfl
  · exact .literal hstart rfl rfl
  · exact .literal hstart rfl rfl
  · exact .literal hstart rfl rfl
  · refine .seq (.literal hstart rfl rfl) fun t => ?_
    refine .quiet (quiet_atPunct _) fun _ => .quiet (quiet_atPunct _) fun _ => .quiet (quiet_atPunct _) fun _ => ?_
    exact .ite (.pure rfl) (.quiet .reject fun _ => .pure rfl)
  · have hrest : ∀ next : Option Token, Starts text start (do
        if next.any fun t => t.kind == .word "function" false && !t.newline then
          advance
          functionExpression rec start true
        else
          let name ← identifierText ctx
          finish (.read name) start []) fun t => [t] := fun next =>
      .ite (.advance (.of_gathers ((takes_functionExpression hrec start true).reads start)))
        (.identifier start ctx (fun _ => rfl) fun _ => rfl)
    refine .ite (.look (fun c a c' h => ?_) hrest) (.look (fun c a c' h => ?_) hrest)
    all_goals
      obtain ⟨_, rfl⟩ := by simpa using h
      rfl

theorem takes_primary (hrec : ReadsGoals text rec) (ctx : Context) : Takes text (primary rec ctx) := by
  refine .starts fun start hstart c t c' hc hhere h => ?_
  subst hhere
  obtain ⟨k, c₁, hkind, h⟩ := run_bind_eq_some h
  obtain ⟨rfl, rfl⟩ := by simpa using hkind
  have hliteral {label : Label} (hleaf : label.isLeaf = true) (hlabel : label.identifier? = none) :
      Starts text c.token.span.start (do advance; finish label c.token.span.start []) fun t => [t] :=
    .literal hstart hleaf hlabel
  have hgoal {p : Parse Tree} (hp : Takes text p) (h : p c = some (t, c')) :
      Onward text c c' ∧ Spaced text c.token.span.start c'.lastStop [t] ∧ c.token.span.start ≤ c'.lastStop :=
    Starts.of_takes hp hc rfl h
  cases hk : c.token.kind with
  | word w escaped =>
    cases escaped with
    | false =>
      simp only [hk] at h
      exact hgoal (takes_primaryWord hrec ctx w) h
    | true =>
      simp only [hk] at h
      exact Starts.identifier _ ctx (fun _ => rfl) (fun _ => rfl) hc rfl h
  | number | bigint | string =>
    simp only [hk] at h
    exact hliteral rfl rfl hc rfl h
  | punct mark =>
    cases mark with
    | leftParen =>
      simp only [hk] at h
      exact hgoal (takes_parenthesized hrec ctx) h
    | leftBracket =>
      simp only [hk] at h
      exact hgoal (takes_arrayLiteral hrec ctx) h
    | leftBrace =>
      simp only [hk] at h
      exact hgoal (takes_objectLiteral hrec ctx) h
    | backtick =>
      simp only [hk] at h
      exact hgoal (takes_template hrec ctx false) h
    | slash =>
      simp only [hk] at h
      exact regex_gives hc hk (.inl rfl) h
    | slashAssign =>
      simp only [hk] at h
      exact regex_gives hc hk (.inr rfl) h
    | «at» =>
      simp only [hk] at h
      refine hgoal ⟨fun lo => .read (reads_decorators hrec ctx) fun ds => ?_, ?_⟩ h
      · exact gathers_classTree hrec ctx .classExpr rfl (fun _ _ _ _ _ => rfl) _ ds
      · exact .behind (reads_decorators hrec ctx).quiet fun ds => (Gives.classTree hrec ctx .classExpr _ ds).2
    | _ => simp [hk, reject] at h
  | _ => simp [hk, reject] at h

/-! ### Accesses -/

theorem gathers_namedAccess (start : Nat) (base : Tree) (optional : Bool) :
    Gathers text lo [base] (namedAccess start base optional) fun t => [t] := by
  refine .quiet (quiet_flawIf _) fun _ => .quiet quiet_kind fun k => ?_
  split
  · exact .quiet quiet_advance fun _ => .finish rfl fun _ => trivial
  · exact .quiet quiet_advance fun _ => .finish rfl fun _ => trivial
  · exact .reject

theorem reads_indexKey (hrec : ReadsGoals text rec) (ctx : Context) : Reads text (indexKey rec ctx) := by
  intro lo
  refine .quiet (quiet_expectPunct _) fun _ => .read (reads_expression hrec _) fun key => ?_
  exact .quiet (quiet_expectPunct _) fun _ => .pure rfl

theorem gathers_optionalAccess (hrec : ReadsGoals text rec) (ctx : Context) (start : Nat) (base : Tree) :
    Gathers text lo [base] (optionalAccess rec ctx start base) fun t => [t] := by
  refine .quiet quiet_kind fun k => ?_
  split
  · exact gathers_callOf hrec ctx start base true
  · exact .read (reads_indexKey hrec ctx) fun key => .finish rfl fun _ => trivial
  · exact .types .rejectBind
  · exact .types .rejectBind
  · exact gathers_namedAccess start base true

theorem gathers_access (hrec : ReadsGoals text rec) (ctx : Context) (calls : Bool) (start : Nat) (a : Accessed) :
    Gathers text lo [a.tree] (access rec ctx calls start a) fun next? => [(next?.getD a).tree] := by
  have hstep {p : Parse Tree} (hp : Gathers text lo [a.tree] p fun t => [t]) (chained : Bool) :
      Gathers text lo [a.tree] (do return some ⟨← p, chained⟩) fun next? : Option Accessed => [(next?.getD a).tree] :=
    .seq hp fun t => .pure rfl
  refine .quiet quiet_kind fun k => ?_
  split
  · exact .quiet quiet_advance fun _ => hstep (gathers_namedAccess start a.tree false) _
  · refine .ite .reject (.ite (.pure rfl) (.quiet quiet_advance fun _ => ?_))
    exact hstep (gathers_optionalAccess hrec ctx start a.tree) _
  · refine .ite (.pure rfl) (.read (reads_indexKey hrec ctx) fun key => ?_)
    exact .seq (.finish rfl fun _ => trivial) fun t => .pure rfl
  · refine .quiet (quiet_flawIf _) fun _ => .read (takes_template hrec ctx true).reads fun t => ?_
    exact .seq (.finishWith fun span stop hts => (spaced_withoutArguments hts).node rfl trivial) fun t => .pure rfl
  · exact .ite (hstep (gathers_callOf hrec ctx start a.tree false) _) (.pure rfl)
  · exact .types (.quiet quiet_onNewLine fun _ => .pure rfl)
  · exact .types (.pure rfl)
  · exact .types (.pure rfl)
  · exact .pure rfl

/-- Only the outermost expression of a run of optional accesses says so. -/
theorem gathers_accessesRest (hrec : ReadsGoals text rec) (ctx : Context) (calls : Bool) (start : Nat) (base : Tree) :
    Gathers text lo [base] (do
      let a ← loop (access rec ctx calls start) { tree := base }
      if !a.chained then pure a.tree
      else match a.tree with
        | .node (.typed .arguments) s [e] => return .node (.typed .arguments) s [← finish .chain start [e]]
        | t => finish .chain start [t]) fun t => [t] := by
  refine .seq (.loop (fun a : Accessed => [a.tree]) (fun a => ?_) { tree := base }) fun a => .ite (.pure rfl) ?_
  · exact (gathers_access hrec ctx calls start a).after fun next? stop h => by cases next? <;> exact h
  · split
    next htree =>
      rw [htree]
      refine .before (fun stop hts => hts.kids rfl rfl) (.node fun span => ?_)
      exact .pureWith fun stop hts => Spaced.node (Spaced.node hts rfl trivial) rfl trivial
    next => exact .finish rfl fun _ => trivial

theorem takes_accesses (hrec : ReadsGoals text rec) (ctx : Context) (calls : Bool) :
    Takes text (accesses rec ctx calls) :=
  .behind quiet_here fun start => .read (takes_primary hrec ctx) fun _ base =>
    gathers_accessesRest hrec ctx calls start base

end LiveNotes.Script
