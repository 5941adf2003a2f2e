import LiveNotes.Proofs.Script.Grammar.Operands
import LiveNotes.Script.Grammar.Variable

/-! Operators, assignments, arrow functions and declared variables as trees of leaves. -/

namespace LiveNotes.Script

open Parse Grammar

variable {text : List Char} {lo hi : Nat} {rec : Readers} {c c' : Cursor}

/-! ### Targets -/

/-- The second tree has only leaves and calls of the first. -/
structure Keeps (text : List Char) (t u : Tree) : Prop where
  marks : (Tree.marks u).Sublist (Tree.marks t)
  regular : Regular text t → Regular text u
  calls : (Tree.calls u).Sublist (Tree.calls t)

/-- The second trees have only leaves and calls of the first. -/
structure KeepsAll (text : List Char) (ts us : List Tree) : Prop where
  marks : (Tree.marksAll us).Sublist (Tree.marksAll ts)
  regular : (∀ t ∈ ts, Regular text t) → ∀ u ∈ us, Regular text u
  calls : (Tree.callsAll us).Sublist (Tree.callsAll ts)

theorem Keeps.refl (t : Tree) : Keeps text t t := ⟨List.Sublist.refl _, id, List.Sublist.refl _⟩

theorem KeepsAll.refl (ts : List Tree) : KeepsAll text ts ts := ⟨List.Sublist.refl _, id, List.Sublist.refl _⟩

theorem Keeps.spaced {t u : Tree} {ts : List Tree} (h : Keeps text t u) (hts : Spaced text lo hi (t :: ts)) :
    Spaced text lo hi (u :: ts) := hts.replace h.regular h.marks h.calls

theorem Keeps.cons {t u : Tree} {ts us : List Tree} (h : Keeps text t u) (h' : KeepsAll text ts us) :
    KeepsAll text (t :: ts) (u :: us) where
  marks := by
    rw [Tree.marksAll, Tree.marksAll]
    exact h.marks.append h'.marks
  regular hts := by
    simp only [List.forall_mem_cons] at hts ⊢
    exact ⟨h.regular hts.1, h'.regular hts.2⟩
  calls := by
    rw [Tree.callsAll, Tree.callsAll]
    exact h.calls.append h'.calls

theorem Keeps.head {t u : Tree} (h : Keeps text t u) (ts : List Tree) : KeepsAll text (t :: ts) (u :: ts) :=
  h.cons (.refl ts)

/-- A node with another label and other parts. -/
theorem KeepsAll.node {label label' : Label} {span : Span} {ks ks' : List Tree} (h : KeepsAll text ks ks')
    (hleaf : label.isLeaf = false) (hinner : label'.isInner = true) (hshort : label.isShorthand = false)
    (hfits : Fits text label span ks → Fits text label' span ks') :
    Keeps text (.node label span ks) (.node label' span ks') where
  marks := by
    rw [marks_node hleaf hshort]
    exact (marks_sublist (Label.isLeaf_of_isInner hinner) span ks').trans h.marks
  regular hregular := regular_node (hfits hregular.fits) (h.regular hregular.kids)
  calls := by
    rw [calls_inner hinner]
    exact h.calls.trans (callsAll_sublist label span ks)

theorem simpleTarget?_keeps {t u : Tree} (h : simpleTarget? t = some u) : Keeps text t u := by
  fun_induction simpleTarget? t generalizing u with
  | case1 x s ks =>
    obtain rfl := by simpa using h
    refine ⟨?_, fun hregular => regular_identifier rfl (hregular.spells rfl).1, List.nil_sublist _⟩
    rw [marks_leaf rfl, marks_leaf rfl]
  | case2 | case3 | case4 =>
    obtain rfl := by simpa using h
    exact .refl _
  | case5 s e ih =>
    refine ⟨?_, fun hregular => (ih h).regular (hregular.kids e (List.mem_singleton_self e)), ?_⟩
    · rw [marks_node rfl rfl, marksAll_singleton]
      exact (ih h).marks
    · rw [calls_inner rfl, callsAll_singleton]
      exact (ih h).calls
  | case6 => simp at h
  | case7 mark s e _ ih =>
    obtain ⟨v, hv, rfl⟩ := Option.map_eq_some_iff.1 h
    exact ((ih hv).head []).node rfl rfl rfl fun _ => trivial
  | case8 => simp at h

theorem patternTarget?_keeps {label label' : Label} {comma : Bool} {s : Span} {ks : List Tree}
    {targets : Option (List Tree)} {u : Tree} (h : patternTarget? label' comma s ks targets = some u)
    (hks : ∀ us, targets = some us → KeepsAll text ks us) (hleaf : label.isLeaf = false)
    (hinner : label'.isInner = true) (hshort : label.isShorthand = false) (hfits : ∀ us, Fits text label' s us) :
    Keeps text (.node label s ks) u := by
  rw [patternTarget?] at h
  split at h
  · simp at h
  · obtain ⟨us, hus, rfl⟩ := Option.map_eq_some_iff.1 h
    exact (hks us hus).node hleaf hinner hshort fun _ => hfits us

/-- What is assigned to by a name that a key says is found where the key is. -/
theorem named_of_elementTarget? {v t : Tree} {span : Span} (h : elementTarget? v = some t)
    (hv : v.label = .coverDefault ∨ v.label = .withDefault ∨ v.label.identifier?.isSome ∧ v.span = span) :
    t.label = .coverDefault ∨ t.label = .withDefault ∨ t.label.identifier?.isSome ∧ t.span = span := by
  obtain ⟨label, s, ks⟩ := v
  dsimp only [Tree.label_node, Tree.span_node] at hv
  obtain rfl | rfl | ⟨hv, rfl⟩ := hv
  · rw [elementTarget?.eq_def] at h
    split at h
    all_goals simp_all [simpleTarget?]
    obtain ⟨_, _, rfl⟩ := h
    simp
  · simp [elementTarget?, simpleTarget?] at h
  · cases label <;> simp_all [Label.identifier?, elementTarget?, simpleTarget?]
    subst h
    simp

/-- A property that is assigned to keeps its key. -/
theorem keeps_property {computed shorthand : Bool} {s : Span} {k v t : Tree} (h : elementTarget? v = some t)
    (hkeeps : Keeps text v t) :
    Keeps text (.node (.property .value computed shorthand) s [k, v])
      (.node (.targetProperty computed shorthand) s [k, t]) := by
  have hparts : KeepsAll text [k, v] [k, t] := (Keeps.refl k).cons (hkeeps.head [])
  cases shorthand with
  | false => exact hparts.node rfl rfl rfl fun _ => trivial
  | true =>
    refine ⟨?_, fun hregular => ?_, ?_⟩
    · rw [marks_shorthand rfl rfl, marks_shorthand rfl rfl, marksAll_singleton, marksAll_singleton]
      exact hkeeps.marks
    · obtain ⟨w, s', v', hks, hv⟩ := hregular.fits
      obtain ⟨rfl, rfl⟩ := by simpa using hks
      exact regular_node ⟨w, s', t, rfl, named_of_elementTarget? h hv⟩ (hparts.regular hregular.kids)
    · rw [calls_inner rfl, calls_inner rfl]
      exact hparts.calls

mutual

theorem target?_keeps : ∀ {t u : Tree}, target? t = some u → Keeps text t u
  | .node label s ks, u, h => by
    rw [target?.eq_def] at h
    split at h
    next heq =>
      obtain ⟨rfl, rfl, rfl⟩ := by simpa using heq
      exact patternTarget?_keeps h (fun _ => elementTargets?_keeps) rfl rfl rfl fun _ => trivial
    next heq =>
      obtain ⟨rfl, rfl, rfl⟩ := by simpa using heq
      exact patternTarget?_keeps h (fun _ => propertyTargets?_keeps) rfl rfl rfl fun _ => trivial
    next => exact simpleTarget?_keeps h

theorem elementTarget?_keeps : ∀ {t u : Tree}, elementTarget? t = some u → Keeps text t u
  | .node label s ks, u, h => by
    rw [elementTarget?.eq_def] at h
    split at h
    next heq =>
      obtain ⟨rfl, rfl, rfl⟩ := by simpa using heq
      obtain rfl := by simpa using h
      exact KeepsAll.node ⟨List.nil_sublist _, by simp, List.nil_sublist _⟩ rfl rfl rfl fun _ => trivial
    next heq =>
      obtain ⟨rfl, rfl, rfl⟩ := by simpa using heq
      obtain rfl := by simpa using h
      exact (KeepsAll.refl _).node rfl rfl rfl fun _ => trivial
    next heq =>
      obtain ⟨rfl, rfl, rfl⟩ := by simpa using heq
      obtain ⟨t, ht, rfl⟩ := Option.map_eq_some_iff.1 h
      exact ((simpleTarget?_keeps ht).head _).node rfl rfl rfl fun _ => trivial
    next e heq =>
      obtain ⟨rfl, rfl, rfl⟩ := by simpa using heq
      obtain ⟨t, ht, rfl⟩ := Option.map_eq_some_iff.1 h
      exact ((target?_keeps ht).head []).node rfl rfl rfl fun _ => trivial
    next heq =>
      obtain ⟨rfl, rfl, rfl⟩ := by simpa using heq
      exact patternTarget?_keeps h (fun _ => elementTargets?_keeps) rfl rfl rfl fun _ => trivial
    next heq =>
      obtain ⟨rfl, rfl, rfl⟩ := by simpa using heq
      exact patternTarget?_keeps h (fun _ => propertyTargets?_keeps) rfl rfl rfl fun _ => trivial
    next => exact simpleTarget?_keeps h

theorem elementTargets?_keeps : ∀ {ts us : List Tree}, elementTargets? ts = some us → KeepsAll text ts us
  | [], us, h => by
    obtain rfl := by simpa [elementTargets?] using h
    exact .refl []
  | t :: ts, us, h => by
    rw [elementTargets?] at h
    split at h
    next => simp at h
    next =>
      split at h
      next u' us' hu hus =>
        obtain rfl := by simpa using h
        exact (elementTarget?_keeps hu).cons (elementTargets?_keeps hus)
      next => simp at h

theorem propertyTarget?_keeps : ∀ {t u : Tree}, propertyTarget? t = some u → Keeps text t u
  | .node label s ks, u, h => by
    rw [propertyTarget?.eq_def] at h
    split at h
    next heq =>
      obtain ⟨rfl, rfl, rfl⟩ := by simpa using heq
      obtain ⟨t, ht, rfl⟩ := Option.map_eq_some_iff.1 h
      exact keeps_property ht (elementTarget?_keeps ht)
    next heq =>
      obtain ⟨rfl, rfl, rfl⟩ := by simpa using heq
      obtain ⟨t, ht, rfl⟩ := Option.map_eq_some_iff.1 h
      exact ((simpleTarget?_keeps ht).head []).node rfl rfl rfl fun _ => trivial
    next => simp at h

theorem propertyTargets?_keeps : ∀ {ts us : List Tree}, propertyTargets? ts = some us → KeepsAll text ts us
  | [], us, h => by
    obtain rfl := by simpa [propertyTargets?] using h
    exact .refl []
  | t :: ts, us, h => by
    rw [propertyTargets?] at h
    split at h
    next => simp at h
    next =>
      split at h
      next u' us' hu hus =>
        obtain rfl := by simpa using h
        exact (propertyTarget?_keeps hu).cons (propertyTargets?_keeps hus)
      next => simp at h

end

/-! ### Effect notes -/

theorem markPure_keeps (t : Tree) : Keeps text t (markPure t) := by
  fun_induction markPure t with
  | case1 | case2 => exact (KeepsAll.refl _).node rfl rfl rfl id
  | case3 s e ih => exact (ih.head _).node rfl rfl rfl fun _ => trivial
  | case4 op s l r ih => exact (ih.head _).node rfl rfl rfl fun _ => trivial
  | case5 op s l r ih => exact (ih.head _).node rfl rfl rfl fun _ => trivial
  | case6 s t y n ih => exact (ih.head _).node rfl rfl rfl fun _ => rfl
  | case7 s o p cs ks =>
    have hcall : Keeps text (.node (.call o p) cs ks) (.node (.call o true) cs ks) :=
      (KeepsAll.refl ks).node rfl rfl rfl id
    exact (hcall.head []).node rfl rfl rfl fun _ => trivial
  | case8 => exact .refl _

theorem gathers_noted (isPure : Bool) (e : Tree) :
    Gathers text lo [e] (pure (if isPure then markPure e else e)) fun t => [t] := by
  refine .pureWith fun stop hts => ?_
  split
  · exact (markPure_keeps e).spaced hts
  · exact hts

theorem reads_withNote {p : Parse Tree} (h : Reads text p) : Reads text (withNote p) := fun _ =>
  .quiet quiet_token fun s => .read h fun e => gathers_noted s.pure e

theorem takes_withNote {p : Parse Tree} (h : Takes text p) : Takes text (withNote p) :=
  .behind quiet_token fun s => .read h fun _ e => gathers_noted s.pure e

/-! ### One operand -/

theorem gathers_updateTarget (t : Tree) : Gathers text lo [t] (updateTarget t) fun u => [u] := by
  unfold updateTarget
  split
  next u hu => exact .pureWith fun stop hts => (simpleTarget?_keeps hu).spaced hts
  next => exact .reject

theorem gathers_postfixRest (start : Nat) (t : Tree) : Gathers text lo [t] (do
    let decrement ← atPunct .minus2
    if (decrement || (← atPunct .plus2)) && !(← onNewLine) then
      let u ← updateTarget t
      advance
      finish (.update decrement false) start [u]
    else pure t) fun t => [t] := by
  refine .quiet (quiet_atPunct _) fun decrement => .quiet (quiet_atPunct _) fun _ => .quiet quiet_onNewLine fun _ => ?_
  refine .ite (.seq (gathers_updateTarget t) fun u => ?_) (.pure rfl)
  exact .quiet quiet_advance fun _ => .finish rfl fun _ => trivial

theorem takes_postfixed (hrec : ReadsGoals text rec) (ctx : Context) : Takes text (postfix_ rec ctx) :=
  .behind quiet_here fun start => .read (takes_accesses hrec ctx true) fun _ t => gathers_postfixRest start t

@[simp] theorem quiet_atAwait (ctx : Context) : Quiet text (atAwait ctx) :=
  (quiet_atWord _).bind fun _ => .ite (.pure _) (.ite (.pure _) (.map quiet_nextToken))

@[simp] theorem quiet_checkAwait (ctx : Context) : Quiet text (checkAwait ctx) :=
  .ite (.pure _) (.ite quiet_flawScript quiet_flaw)

/-- Angle brackets stand for types or markup only. -/
theorem angled_eq_none (hc : Ready text c) (ctx : Context) : angled rec ctx c = none := by
  simp [angled, markupAllowed, hc.plain, reject]

theorem takes_unary (hrec : ReadsGoals text rec) (ctx : Context) : Takes text (unary rec ctx) := by
  refine .behind quiet_here fun start => .behind quiet_kind fun k => ?_
  split
  · refine .advance fun lo => .read (reads_withNote (hrec _ rfl)) fun e => ?_
    exact .finish rfl fun _ => trivial
  · have htarget : Takes text (do
        advance
        let t ← updateTarget (← rec (.unary ctx))
        finish (.update (k == .punct .minus2) true) start [t]) :=
      .advance fun lo => .read (hrec _ rfl) fun t =>
        .seq (gathers_updateTarget t) fun u => .finish rfl fun _ => trivial
    have hangled : Takes text (angled rec ctx) :=
      ⟨fun _ c _ _ hc _ _ h => by simp [angled_eq_none hc] at h, fun c _ _ hc h => by simp [angled_eq_none hc] at h⟩
    split
    · exact htarget
    · exact htarget
    · exact hangled
    · exact hangled
    · refine .behind (quiet_atAwait ctx) fun _ => .ite ?_ (takes_postfixed hrec ctx)
      refine .behind (quiet_checkAwait ctx) fun _ => .advance fun lo => .read (hrec _ rfl) fun e => ?_
      exact .finish rfl fun _ => trivial

/-! ### Two operands -/

theorem infixOp?_place (hc : Ready text c) {ctx : Context} {op? : Option (InfixOp × Place)}
    (h : infixOp? ctx c = some (op?, c')) : c' = c ∧ ∀ op ∈ op?, c.start.Reaches op.2 := by
  obtain ⟨s, c₁, hget, h⟩ := run_bind_eq_some h
  obtain ⟨rfl, rfl⟩ := by simpa using hget
  obtain ⟨p, hp, h⟩ : ∃ p : Parse (Option (InfixOp × Place)), _ = p ∧ p c = _ := ⟨_, rfl, h⟩
  have hrun := hc.after.trans (reaches_angleRun c.after)
  split at hp
  all_goals subst hp
  · obtain ⟨op, n, assigns⟩ := angleRun c.after.rest
    obtain ⟨rfl, rfl⟩ := by simpa using h
    refine ⟨rfl, fun op hop => ?_⟩
    split at hop
    · simp at hop
    · obtain rfl := by simpa using hop
      exact hrun
  · obtain ⟨rfl, rfl⟩ := by simpa using h
    refine ⟨rfl, fun op hop => ?_⟩
    obtain ⟨_, _, rfl⟩ := by simpa using hop
    exact hc.after
  · obtain ⟨rfl, rfl⟩ := by simpa using h
    refine ⟨rfl, fun op hop => ?_⟩
    obtain rfl := by simpa using hop
    exact hc.after
  · obtain ⟨rfl, rfl⟩ := by simpa using h
    refine ⟨rfl, fun op hop => ?_⟩
    split at hop
    · obtain rfl := by simpa using hop
      exact hc.after
    · simp at hop
  · obtain ⟨rfl, rfl⟩ := by simpa using h
    exact ⟨rfl, by simp⟩

/-- The reading goes on behind a place that an operator ends at. -/
theorem Gathers.passOver {α : Type} (made : α → List Tree) {q : Parse α} {ts : List Tree} {a : α} {place : Place}
    (hq : Gathers text lo ts q made) (hc : Ready text c) (hplace : c.start.Reaches place)
    (hlo : lo ≤ c.token.span.start) (hts : Spaced text lo c.lastStop ts)
    (h : (do
      if (← get).after.pos == place.pos then
        advance
        q
      else
        advanceFrom place
        q : Parse α) c = some (a, c')) :
    Onward text c c' ∧ Spaced text lo c'.lastStop (made a) := by
  obtain ⟨s, c₁, hget, h⟩ := run_bind_eq_some h
  obtain ⟨rfl, rfl⟩ := by simpa using hget
  split at h
  · obtain ⟨_, c₁, hadvance, h⟩ := run_bind_eq_some h
    have hmove := quiet_advance hc hadvance
    exact hq.run hmove hlo (hts.weaken (Nat.le_refl _) hmove.lastStop) h
  · obtain ⟨_, c₁, hadvance, h⟩ := run_bind_eq_some h
    obtain ⟨hmove, _⟩ := hc.advanceFrom hplace hadvance
    exact hq.run hmove hlo (hts.weaken (Nat.le_refl _) hmove.lastStop) h

theorem takes_privateSearch (hrec : ReadsGoals text rec) (ctx : Context) (least : Nat) (w : String) :
    Takes text (privateSearch rec ctx least w) := by
  refine .behind quiet_here fun start => .advance fun lo => ?_
  have hrest : Gathers text lo [] (do
      expectWord "in"
      let e ← rec (.binary ctx (comparePrecedence + 1))
      if least > comparePrecedence then reject
      finish (.privateIn w) start [e]) fun t => [t] := by
    refine .quiet (quiet_expectWord _) fun _ => .read (hrec _ rfl) fun e => ?_
    exact .ite .rejectBind (.finish rfl fun _ => trivial)
  exact .ite hrest .rejectBind

theorem takes_operand (hrec : ReadsGoals text rec) (ctx : Context) (least : Nat) :
    Takes text (operand rec ctx least) := by
  refine .behind quiet_kind fun k => ?_
  split
  · exact takes_privateSearch hrec ctx least _
  · exact takes_withNote (takes_unary hrec ctx)

theorem Gathers.noClaim {β : Type} {ts : List Tree} {q : Bool → Parse β} {made : β → List Tree}
    (hq : Gathers text lo ts (q false) made) : Gathers text lo ts (atTypeClaim >>= q) made := by
  intro c b c'' hc hlo hts h
  obtain ⟨claim, c₁, hclaim, h⟩ := run_bind_eq_some h
  obtain ⟨rfl, rfl⟩ : false = claim ∧ c = c₁ := by simpa [atTypeClaim, hc.plain] using hclaim
  exact hq hc hlo hts h

theorem gathers_binaryStep (hrec : ReadsGoals text rec) (ctx : Context) (least start : Nat) (left : Tree) :
    Gathers text lo [left] (binaryStep rec ctx least start left) fun next? => next?.elim [left] fun t => [t] := by
  refine .noClaim ?_
  rw [Bool.and_false, if_neg Bool.false_ne_true]
  intro c next? c'' hc hlo hts h
  obtain ⟨op?, c₁, hop, h⟩ := run_bind_eq_some h
  obtain ⟨rfl, hplace⟩ := infixOp?_place hc hop
  cases op? with
  | none =>
    obtain ⟨rfl, rfl⟩ := by simpa using h
    exact ⟨.refl hc, hts⟩
  | some op =>
    obtain ⟨op, place⟩ := op
    dsimp only at h
    split at h
    · obtain ⟨rfl, rfl⟩ := by simpa using h
      exact ⟨.refl hc, hts⟩
    · refine Gathers.passOver (fun next? => next?.elim [left] fun t => [t]) ?_ hc (hplace _ rfl) hlo hts h
      refine .read (hrec _ rfl) fun right => .quiet (quiet_flawIf _) fun _ => ?_
      cases op <;> exact .seq (.finish rfl fun _ => trivial) fun t => .pure rfl

theorem takes_binary (hrec : ReadsGoals text rec) (ctx : Context) (least : Nat) :
    Takes text (binary rec ctx least) := by
  refine .behind quiet_here fun start => .read (takes_operand hrec ctx least) fun lo first => ?_
  exact .loop (fun t => [t]) (fun left => gathers_binaryStep hrec ctx least start left) first

/-! ### Arrow functions -/

@[simp] theorem quiet_arrowLikelihood : Quiet text arrowLikelihood := by
  refine quiet_kind.bind fun k => ?_
  split <;> simp

/-- The arrow is taken, and what follows it. -/
theorem passes_arrowRest (hrec : ReadsGoals text rec) (ctx : Context) (start : Nat) (isAsync : Bool) (ps : Tree) :
    Quiet text (arrowRest rec ctx start isAsync ps) ∧ Moves text (arrowRest rec ctx start isAsync ps) fun _ => True := by
  have hbody : Quiet text (do
      let inner := insideArrow ctx isAsync
      if ← atPunct .leftBrace then
        let body ← functionBody rec inner
        finish (.arrow { isAsync }) start [ps, body]
      else
        let body ← rec (.assignment { inner with returns := false, resultTypes := ctx.resultTypes })
        finish (.arrow { isAsync, concise := true }) start [ps, body]) := by
    refine (quiet_atPunct _).bind fun _ => .ite ?_ ?_
    · exact (reads_functionBody hrec _).quiet.bind fun _ => quiet_finish _ _ _
    · exact Quiet.bind (Reads.quiet (hrec _ rfl)) fun _ => quiet_finish _ _ _
  refine ⟨quiet_onNewLine.bind fun _ => ?_, .behind quiet_onNewLine fun _ => ?_⟩
  · exact .ite (Quiet.reject.bind fun _ => (quiet_expectPunct _).bind fun _ => hbody)
      ((quiet_expectPunct _).bind fun _ => hbody)
  · exact .ite (.behind .reject fun _ => .atOnce (moves_expectPunct _) (quiet_expectPunct _) fun _ => hbody)
      (.atOnce (moves_expectPunct _) (quiet_expectPunct _) fun _ => hbody)

theorem gathers_arrowRest (hrec : ReadsGoals text rec) (ctx : Context) (start : Nat) (isAsync : Bool) (ps : Tree) :
    Gathers text lo [ps] (arrowRest rec ctx start isAsync ps) fun t => [t] := by
  have hrest : Gathers text lo [ps] (do
      expectPunct .arrow
      let inner := insideArrow ctx isAsync
      if ← atPunct .leftBrace then
        let body ← functionBody rec inner
        finish (.arrow { isAsync }) start [ps, body]
      else
        let body ← rec (.assignment { inner with returns := false, resultTypes := ctx.resultTypes })
        finish (.arrow { isAsync, concise := true }) start [ps, body]) fun t => [t] := by
    refine .quiet (quiet_expectPunct _) fun _ => .quiet (quiet_atPunct _) fun _ => .ite ?_ ?_
    · exact .read (reads_functionBody hrec _) fun body => .finish rfl fun _ => rfl
    · exact .read (hrec _ rfl) fun body => .finish rfl fun _ => rfl
  exact .quiet quiet_onNewLine fun _ => .ite .rejectBind hrest

theorem takes_parenArrow (hrec : ReadsGoals text rec) (ctx : Context) : Takes text (parenArrow rec ctx) := by
  refine .behind quiet_here fun start => .behind (quiet_eatWord _) fun isAsync => ⟨fun lo => .types ?_, .types ?_⟩
  · refine .read (reads_parameters hrec _ _) fun ps => .quiet quiet_resultAnnotation fun annotated => ?_
    refine .seq (gathers_arrowRest hrec ctx start isAsync ps) fun t => .quiet (quiet_atPunct _) fun _ => ?_
    exact .ite .rejectBind (.pure rfl)
  · refine .behind (reads_parameters hrec _ _).quiet fun ps => .behind quiet_resultAnnotation fun annotated => ?_
    obtain ⟨hquiet, hmoves⟩ := passes_arrowRest hrec ctx start isAsync ps
    refine .atOnce hmoves hquiet fun t => (quiet_atPunct _).bind fun _ => .ite ?_ (.pure _)
    exact Quiet.reject.bind fun _ => .pure _

theorem takes_nameArrow (hrec : ReadsGoals text rec) (ctx : Context) (start : Nat) (isAsync : Bool) :
    Takes text (nameArrow rec ctx start isAsync) where
  reads _ := .read (reads_bindingName _) fun _ => .seq (.finish rfl fun _ => trivial) fun ps =>
    gathers_arrowRest hrec ctx start isAsync ps
  moves := .behind (reads_bindingName _).quiet fun _ => .behind (quiet_finish _ _ _) fun ps =>
    (passes_arrowRest hrec ctx start isAsync ps).2

/-- What was found takes the token where it starts. -/
theorem Takes.some {p : Parse Tree} (h : Takes text p) : Moves text (do return some (← p)) fun t? => t?.isSome :=
  .atOnce h.moves h.quiet fun _ => .pure _

theorem Gives.nameArrow? (hrec : ReadsGoals text rec) (ctx : Context) :
    Gives text (nameArrow? rec ctx) Option.toList := by
  intro lo
  refine .quiet quiet_here fun start => .quiet quiet_atIdentifier fun _ => .ite (.pure rfl) ?_
  refine .quiet quiet_nextToken fun next => .ite (.read (takes_nameArrow hrec ctx start false).reads fun t => .pure rfl) ?_
  refine .quiet (quiet_atWord _) fun _ => .ite (.quiet (quiet_looksLike _) fun _ => .ite ?_ (.pure rfl)) (.pure rfl)
  exact .quiet quiet_advance fun _ => .read (takes_nameArrow hrec ctx start true).reads fun t => .pure rfl

theorem moves_nameArrow? (hrec : ReadsGoals text rec) (ctx : Context) :
    Moves text (nameArrow? rec ctx) fun t? => t?.isSome := by
  have hnone : Moves text (pure none) fun (t? : Option Tree) => t?.isSome := .pure (by simp)
  refine .behind quiet_here fun start => .behind quiet_atIdentifier fun _ => .ite hnone ?_
  refine .behind quiet_nextToken fun next => .ite (takes_nameArrow hrec ctx start false).some ?_
  refine .behind (quiet_atWord _) fun _ => .ite (.behind (quiet_looksLike _) fun _ => .ite ?_ hnone) hnone
  exact .behind quiet_advance fun _ => (takes_nameArrow hrec ctx start true).some

theorem Gives.attempt {p : Parse Tree} (h : Reads text p) : Gives text (attempt p) Option.toList := by
  intro lo c t? c' hc hlo hts hrun
  rw [Parse.attempt] at hrun
  split at hrun
  next hp =>
    obtain ⟨rfl, rfl⟩ := by simpa using hrun
    exact h lo hc hlo hts hp
  next =>
    obtain ⟨rfl, rfl⟩ := by simpa using hrun
    exact ⟨.refl hc, hts⟩

theorem Takes.attempt {p : Parse Tree} (h : Takes text p) :
    Moves text (Parse.attempt p) fun t? => t?.isSome := fun c t? c' hc hrun hfound => by
  rw [Parse.attempt] at hrun
  split at hrun
  next hp =>
    obtain ⟨rfl, rfl⟩ := by simpa using hrun
    exact h.moves hc hp trivial
  next =>
    obtain ⟨rfl, rfl⟩ := by simpa using hrun
    contradiction

theorem Gives.arrow? (hrec : ReadsGoals text rec) (ctx : Context) : Gives text (arrow? rec ctx) Option.toList := by
  intro lo
  refine .quiet quiet_arrowLikelihood fun likelihood => ?_
  cases likelihood with
  | yes => exact .read (takes_parenArrow hrec _).reads fun t => .pure rfl
  | maybe =>
    refine .bind (.attempt (takes_parenArrow hrec ctx).reads) fun t? => ?_
    cases t? with
    | none => exact Gives.nameArrow? hrec ctx lo
    | some t => exact .pure rfl
  | no => exact Gives.nameArrow? hrec ctx lo

theorem moves_arrow? (hrec : ReadsGoals text rec) (ctx : Context) :
    Moves text (arrow? rec ctx) fun t? => t?.isSome := by
  refine .behind quiet_arrowLikelihood fun likelihood => ?_
  cases likelihood with
  | yes => exact (takes_parenArrow hrec _).some
  | no => exact moves_nameArrow? hrec ctx
  | maybe =>
    intro c t? c' hc h hfound
    obtain ⟨first?, c₁, hfirst, h⟩ := run_bind_eq_some h
    have hparen := takes_parenArrow hrec ctx
    cases first? with
    | some t =>
      obtain ⟨rfl, rfl⟩ := by simpa using h
      exact hparen.attempt hc hfirst rfl
    | none =>
      have hmove := (Gives.attempt hparen.reads).quiet hc hfirst
      exact Nat.le_trans hmove.here (moves_nameArrow? hrec ctx hmove.ready h hfound)

/-! ### Assignments -/

theorem assignOp?_place (hc : Ready text c) {op? : Option (AssignOp × Place)} (h : assignOp? c = some (op?, c')) :
    c' = c ∧ ∀ op ∈ op?, c.start.Reaches op.2 := by
  obtain ⟨s, c₁, hget, h⟩ := run_bind_eq_some h
  obtain ⟨rfl, rfl⟩ := by simpa using hget
  obtain ⟨p, hp, h⟩ : ∃ p : Parse (Option (AssignOp × Place)), _ = p ∧ p c = _ := ⟨_, rfl, h⟩
  have hrun := hc.after.trans (reaches_angleRun c.after)
  split at hp
  all_goals subst hp
  · obtain ⟨op, n, assigns⟩ := angleRun c.after.rest
    obtain ⟨rfl, rfl⟩ := by simpa using h
    refine ⟨rfl, fun op hop => ?_⟩
    split at hop
    · obtain rfl := by simpa using hop
      exact hrun
    · simp at hop
  · obtain ⟨rfl, rfl⟩ := by simpa using h
    refine ⟨rfl, fun op hop => ?_⟩
    obtain ⟨_, _, rfl⟩ := by simpa using hop
    exact hc.after
  · obtain ⟨rfl, rfl⟩ := by simpa using h
    exact ⟨rfl, by simp⟩

theorem takes_yieldExpression (hrec : ReadsGoals text rec) (ctx : Context) :
    Takes text (yieldExpression rec ctx) := by
  refine .behind quiet_here fun start => .expectWord fun lo => ?_
  refine .quiet (quiet_atPunct _) fun _ => .quiet quiet_onNewLine fun _ => .ite ?_ ?_
  · exact .quiet quiet_advance fun _ => .read (hrec _ rfl) fun e => .finish rfl fun _ => trivial
  · refine .quiet quiet_token fun s => .ite ?_ ?_
    · exact .read reads_hole fun e => .finish rfl fun _ => trivial
    · exact .read (hrec _ rfl) fun e => .finish rfl fun _ => trivial

theorem gathers_conditionalRest (hrec : ReadsGoals text rec) (ctx : Context) (start : Nat) (test : Tree) :
    Gathers text lo [test] (conditionalRest rec ctx start test) fun t => [t] := by
  refine .quiet (quiet_eatPunct _) fun _ => .ite ?_ (.pure rfl)
  refine .read (hrec _ rfl) fun yes => .quiet (quiet_expectPunct _) fun _ => .read (hrec _ rfl) fun no => ?_
  exact .finish rfl fun _ => rfl

theorem assignmentRest_gives (hrec : ReadsGoals text rec) {ctx : Context} {start : Nat} {left t : Tree} {op : AssignOp}
    {place : Place} (hc : Ready text c) (hplace : c.start.Reaches place) (hlo : lo ≤ c.token.span.start)
    (hts : Spaced text lo c.lastStop [left]) (h : assignmentRest rec ctx start left op place c = some (t, c')) :
    Onward text c c' ∧ Spaced text lo c'.lastStop [t] := by
  rw [assignmentRest] at h
  cases hu : target? left with
  | none => simp [hu, reject] at h
  | some u =>
    simp only [hu] at h
    refine Gathers.passOver (fun t => [t]) ?_ hc hplace hlo ((target?_keeps hu).spaced hts) h
    exact .read (hrec _ rfl) fun value => .finish rfl fun _ => trivial

theorem markPureFunction_keeps (t : Tree) : Keeps text t (markPureFunction t) := by
  unfold markPureFunction
  split
  · exact (KeepsAll.refl _).node rfl rfl rfl id
  · exact (KeepsAll.refl _).node rfl rfl rfl id
  · exact (KeepsAll.refl _).node rfl rfl rfl id
  · exact .refl _

/-- What follows an operand that may be assigned to or chosen by. -/
theorem gathers_assignmentTail (hrec : ReadsGoals text rec) (ctx : Context) {noted : Tree → Tree}
    (hnoted : ∀ t, Keeps text t (noted t)) (start : Nat) (left : Tree) : Gathers text lo [left] (do
      match ← assignOp? with
      | some (op, place) => assignmentRest rec ctx start left op place
      | none =>
        let t ← conditionalRest rec ctx start left
        pure (noted t)) fun t => [t] := by
  intro c t c' hc hlo hts h
  obtain ⟨op?, c₁, hop, h⟩ := run_bind_eq_some h
  obtain ⟨rfl, hplace⟩ := assignOp?_place hc hop
  cases op? with
  | some op => exact assignmentRest_gives hrec hc (hplace _ rfl) hlo hts h
  | none =>
    have hchoice : Gathers text lo [left] (do
        let t ← conditionalRest rec ctx start left
        pure (noted t)) fun t => [t] :=
      .seq (gathers_conditionalRest hrec ctx start left) fun t => .pureWith fun stop hts => (hnoted t).spaced hts
    exact hchoice hc hlo hts h

theorem takes_assignment (hrec : ReadsGoals text rec) (ctx : Context) : Takes text (assignment rec ctx) := by
  refine .behind quiet_token fun s => .behind (quiet_atWord _) fun _ => .ite (takes_yieldExpression hrec ctx) ?_
  have hnoted (t : Tree) : Keeps text t (if s.pureFunction then markPureFunction t else t) := by
    split
    · exact markPureFunction_keeps t
    · exact .refl t
  have hbinary := fun start : Nat => (takes_binary hrec ctx 0).read fun _ left =>
    gathers_assignmentTail hrec ctx hnoted start left
  refine ⟨fun lo => .bind (Gives.arrow? hrec ctx) fun t? => ?_, fun c t c' hc h _ => ?_⟩
  · cases t? with
    | some t => exact .pureWith fun stop hts => (hnoted t).spaced hts
    | none => exact .quiet quiet_here fun start => (hbinary start).reads lo
  · obtain ⟨t?, c₁, harrow, h⟩ := run_bind_eq_some h
    cases t? with
    | some t =>
      obtain ⟨rfl, rfl⟩ := by simpa using h
      exact moves_arrow? hrec ctx hc harrow rfl
    | none =>
      have hmove := (Gives.arrow? hrec ctx).quiet hc harrow
      obtain ⟨start, _, hhere, h⟩ := run_bind_eq_some h
      obtain ⟨rfl, rfl⟩ := by simpa using hhere
      exact Nat.le_trans hmove.here ((hbinary _).moves hmove.ready h trivial)

/-! ### Declared variables -/

theorem reads_declarator (hrec : ReadsGoals text rec) (ctx : Context) (kind : VariableKind) :
    Reads text (declarator rec ctx kind) := by
  intro lo
  refine .quiet quiet_here fun start => .read (hrec _ rfl) fun p => .quiet (quiet_flawIf _) fun _ => .types ?_
  refine .quiet (quiet_atPunct _) fun bang => .quiet quiet_onNewLine fun newline => ?_
  have hrest : Gathers text lo [p] (do
      let colon ← atPunct .colon
      typeAnnotation rec
      let value ← if ← eatPunct .assign then rec (.assignment ctx) else holeHere
      flawIf (false && !(colon && value.isHole))
      finish .declarator start [p, value]) fun t => [t] := by
    refine .quiet (quiet_atPunct _) fun _ => .quiet quiet_typeAnnotation fun _ => ?_
    refine .quiet (quiet_eatPunct _) fun _ => .ite ?_ ?_
    · exact .read (hrec _ rfl) fun value => .quiet (quiet_flawIf _) fun _ => .finish rfl fun _ => trivial
    · exact .read reads_hole fun value => .quiet (quiet_flawIf _) fun _ => .finish rfl fun _ => trivial
  simpa using hrest

theorem reads_variableList (hrec : ReadsGoals text rec) (ctx : Context) (start : Nat) (kind : VariableKind) :
    Reads text (variableList rec ctx start kind) := by
  intro lo
  refine .read (reads_declarator hrec ctx kind) fun first => .bind (.many fun lo => ?_) fun others => ?_
  · refine .quiet (quiet_eatPunct _) fun _ => .ite ?_ (.pure rfl)
    exact .read (reads_declarator hrec ctx kind) fun t => .pure rfl
  · exact .finish rfl fun _ => trivial

theorem reads_variableStatement (hrec : ReadsGoals text rec) (ctx : Context) (start : Nat) (kind : VariableKind) :
    Reads text (variableStatement rec ctx start kind) := by
  intro lo c t c' hc hlo hts h
  obtain ⟨u, c₁, hlist, h⟩ := run_bind_eq_some h
  obtain ⟨span, ks, rfl⟩ : ∃ span ks, u = .node (.variableList kind) span ks := by
    obtain ⟨_, _, -, hlist⟩ := run_bind_eq_some hlist
    obtain ⟨_, _, -, hlist⟩ := run_bind_eq_some hlist
    obtain ⟨rfl, rfl⟩ := by simpa using hlist
    exact ⟨_, _, rfl⟩
  obtain ⟨hmove, hmade⟩ := reads_variableList hrec ctx start kind lo hc hlo hts hlist
  refine Gathers.runTree ?_ hmove hlo (hmade.kids rfl rfl) h
  exact .quiet (quiet_flawIf _) fun _ => .quiet quiet_endStatement fun _ => .finish rfl fun _ => trivial

@[simp] theorem quiet_startsUsing : Quiet text startsUsing := by
  refine (quiet_atWord _).bind fun _ => .ite ?_ (.pure _)
  exact quiet_nextToken.bind fun _ => .pure _

@[simp] theorem quiet_startsAwaitUsing : Quiet text startsAwaitUsing :=
  (quiet_atWord _).bind fun _ => .ite (quiet_looksLike _) (.pure _)

@[simp] theorem quiet_loopVariables? : Quiet text loopVariables? := by
  refine quiet_kind.bind fun k => ?_
  split
  · exact .pure _
  · exact .pure _
  · refine quiet_nextToken.bind fun next => ?_
    split <;> exact .pure _
  · exact quiet_nextToken.bind fun _ => quiet_startsUsing.bind fun _ => .pure _
  · exact quiet_startsAwaitUsing.bind fun _ => .pure _
  · exact .pure _

@[simp] theorem quiet_skipKeyword (kind : VariableKind) : Quiet text (skipKeyword kind) := by
  simp [skipKeyword]

end LiveNotes.Script
