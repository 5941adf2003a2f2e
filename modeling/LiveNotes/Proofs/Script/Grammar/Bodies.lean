import LiveNotes.Proofs.Script.Grammar.Items

/-! The statements of a module by their first words: they stand behind each other in its text, and the imports
among them bind variables. -/

namespace LiveNotes.Script

open Parse Grammar

variable {text : List Char} {rec : Readers} {ctx : Context} {c c' : Cursor} {start : Nat} {t : Tree}

/-! ### Statements by their first word -/

/-- What the reader makes is no item of a module, or exports something, or was read as an import. -/
def Sorts (text : List Char) (ctx : Context) (start : Nat) (p : Parse Tree) : Prop :=
  ∀ ⦃c t c'⦄, Ready text c → c.token.span.start = start → p c = some (t, c') →
    IsInner start t c' ∨ (Placed text start c'.token.span.start t ∧ t.label.isImport = false) ∨
      importDeclaration ctx c = some (t, c')

namespace Sorts

variable {α : Type} {p : Parse α} {q : α → Parse Tree}

theorem of_inner {p : Parse Tree} (h : LeadsFrom text start p (IsInner start)) : Sorts text ctx start p :=
  fun _ _ _ hc hstart hrun => .inl (h hc hstart hrun)

/-- The reader looks at what is in front of it first. -/
theorem look {a : Cursor → α} (hp : ∀ c, p c = some (a c, c)) (hq : ∀ a, Sorts text ctx start (q a)) :
    Sorts text ctx start (p >>= q) := fun c _ _ hc hstart h => by
  obtain ⟨_, _, hfirst, h⟩ := run_bind_eq_some h
  obtain ⟨rfl, rfl⟩ := by simpa [hp] using hfirst
  exact hq _ hc hstart h

theorem here {q : Nat → Parse Tree} (hq : Sorts text ctx start (q start)) : Sorts text ctx start (Parse.here >>= q) :=
  fun c _ _ hc hstart h => by
    obtain ⟨_, _, hhere, h⟩ := run_bind_eq_some h
    obtain ⟨rfl, rfl⟩ := by simpa using hhere
    exact hq hc hstart (hstart ▸ h)

theorem of_export (hrec : ReadsGoals text rec) (hassign : Assigns text rec) {ds : Tree}
    (hds : ∀ m ∈ ds.calls, m.stop ≤ start) : Sorts text ctx start (exportDeclaration rec ctx ds) :=
  fun _ _ _ hc hstart h => .inr (.inl (hstart ▸ placed_exportDeclaration hrec hassign hc (hstart ▸ hds) h))

end Sorts

/-- A class starts at its first word, or where its head says. -/
theorem leads_classStatement (hrec : ReadsGoals text rec) (h : DeclarationHead) (alone : Bool) :
    LeadsFrom text start (classStatement rec ctx h alone) fun t c => IsInner start t c ∨ IsInner h.start t c := by
  have hdeclaration : LeadsFrom text start (declaration rec ctx h) fun t c => IsInner start t c ∨ IsInner h.start t c :=
    fun c t c' hc hstart hrun => hstart ▸ (declared_declaration hrec hc hrun).isInner
  refine .stay (Stays.flawIf _) fun _ => .stay (stays_atWord _) fun _ => .ite hdeclaration ?_
  exact .of_leads fun c t c' hrun => by simp [Parse.reject] at hrun

theorem quiet_classStatement (hrec : ReadsGoals text rec) (h : DeclarationHead) (alone : Bool) :
    Quiet text (classStatement rec ctx h alone) := by
  refine (quiet_flawIf _).bind fun _ => (quiet_atWord _).bind fun _ => .ite (quiet_declaration hrec h) ?_
  exact Quiet.reject.bind fun _ => quiet_declaration hrec h

theorem IsInner.isImport (h : IsInner start t c) : t.label.isImport = false := by
  have hinner := h.2
  cases hlabel : t.label <;> simp_all [isModuleItem, Label.isImport]

theorem sorts_decoratedStatement (hrec : ReadsGoals text rec) (hassign : Assigns text rec) (alone : Bool) :
    Sorts text ctx start (decoratedStatement rec ctx alone) := by
  refine .here fun c t c' hc hstart h => ?_
  obtain ⟨ds, c₁, hds, h⟩ := run_bind_eq_some h
  obtain ⟨hmove, hspaced⟩ := reads_decorators hrec ctx _ hc (Nat.le_refl _) .nil hds
  have hfront (m : Span) (hm : m ∈ ds.calls) : m.stop ≤ c₁.token.span.start :=
    Nat.le_trans (hspaced.inside m (by rwa [callsAll_singleton])).le_hi hmove.ready.lastStop_le
  obtain ⟨_, _, hat, h⟩ := run_bind_eq_some h
  obtain ⟨rfl, rfl⟩ := by simpa using hat
  split at h
  · obtain ⟨hplaced, himport⟩ := placed_exportDeclaration hrec hassign hmove.ready hfront h
    exact .inr (.inl ⟨hplaced.weaken (hstart ▸ hmove.here) (Nat.le_refl _), himport⟩)
  · obtain ⟨ms, c₂, hms, h⟩ := run_bind_eq_some h
    have hlast := quiet_modifiers _ hmove.ready hms
    have hc' := (quiet_classStatement hrec _ _ hlast.ready h).ready
    rcases leads_classStatement hrec _ alone hlast.ready rfl h with hinner | hinner
    · refine .inr (.inl ⟨.of_isInner hinner hc' ?_, hinner.isImport⟩)
      exact hstart ▸ Nat.le_trans hmove.here hlast.here
    · exact .inl hinner

theorem readsInner_softWordStatement (alone : Bool) (w : String) :
    ReadsInner text (softWordStatement rec ctx alone w) := by
  refine fun start => .here ?_
  split
  · exact readsInner_letStatement alone start
  · refine .stay stays_nextToken fun next => .ite (.of_leads (.bind fun _ => ?_)) (readsInner_expressionStatement start)
    exact makesInner_functionStatement true alone
  · refine .stay ?_ fun _ => .ite (readsInner_lexicalStatement alone .using start) (readsInner_expressionStatement start)
    exact (stays_atWord _).bind fun _ => .ite (stays_nextToken.bind fun _ => .pure _) (.pure _)
  · refine .stay ?_ fun _ => .ite (readsInner_lexicalStatement alone .awaitUsing start) (readsInner_expressionStatement start)
    exact (stays_atWord _).bind fun _ => .ite (.looksLike _) (.pure _)
  · refine .types (.stay (.looksLike _) fun _ => ?_)
    rw [Bool.and_false, Bool.false_and, if_neg Bool.false_ne_true]
    exact readsInner_expressionStatement start

theorem sorts_wordStatement (hrec : ReadsGoals text rec) (hassign : Assigns text rec) (alone : Bool) (w : String) :
    Sorts text ctx start (wordStatement rec ctx alone w) := by
  refine .here ?_
  split
  · exact .of_inner (.of_leads (.bind fun _ => makesInner_variableStatement .var))
  · refine .of_inner (.types (.stay stays_nextToken fun _ => ?_))
    rw [Bool.false_and, if_neg Bool.false_ne_true]
    exact readsInner_lexicalStatement alone .const start
  · exact .of_inner (.of_leads (makesInner_functionStatement false alone))
  · refine .of_inner fun c t c' hc hstart h => ?_
    simpa using leads_classStatement hrec _ alone hc hstart h
  · exact .of_inner (readsInner_ifStatement start)
  · exact .of_inner (readsInner_forStatement start)
  · exact .of_inner (readsInner_whileStatement start)
  · exact .of_inner (readsInner_doStatement start)
  · exact .of_inner (readsInner_jumpStatement (fun _ _ => rfl) start)
  · exact .of_inner (readsInner_jumpStatement (fun _ _ => rfl) start)
  · exact .of_inner (readsInner_returnStatement start)
  · exact .of_inner (readsInner_withStatement start)
  · exact .of_inner (readsInner_switchStatement start)
  · exact .of_inner (readsInner_throwStatement start)
  · exact .of_inner (readsInner_tryStatement start)
  · exact .of_inner (readsInner_debuggerStatement start)
  · refine .look run_nextToken fun next => ?_
    split
    · exact .of_inner (readsInner_expressionStatement start)
    · exact .of_inner (readsInner_expressionStatement start)
    · exact fun c t c' _ _ h => .inr (.inr h)
  · exact .of_export hrec hassign nofun
  · split
    · exact .of_inner (readsInner_expressionStatement start)
    · exact .of_inner (readsInner_softWordStatement alone w start)

theorem sorts_plainStatement (hrec : ReadsGoals text rec) (hassign : Assigns text rec) (alone : Bool) :
    Sorts text ctx start (plainStatement rec ctx alone) := by
  refine .here (.look run_kind fun k => ?_)
  split
  · exact .of_inner (readsInner_block start)
  · exact .of_inner (.of_leads (.bind fun _ => makesInner_finish fun _ => rfl))
  · exact sorts_decoratedStatement hrec hassign alone
  · exact sorts_wordStatement hrec hassign alone _
  · exact .of_inner (readsInner_expressionStatement start)

theorem placed_plainStatement (hrec : ReadsGoals text rec) (hassign : Assigns text rec) {alone : Bool} (hc : Ready text c)
    (h : plainStatement rec ctx alone c = some (t, c')) : Placed text c.token.span.start c'.token.span.start t := by
  have hc' := ((reads_plainStatement hrec ctx alone).quiet hc h).ready
  rcases sorts_plainStatement hrec hassign alone hc rfl h with hinner | hexport | himport
  · exact .of_isInner hinner hc' (Nat.le_refl _)
  · exact hexport.1
  · rcases placed_importDeclaration hc himport with hinner | hplaced
    · exact .of_isInner hinner hc' (Nat.le_refl _)
    · exact hplaced

theorem ensures_plainStatement (hrec : ReadsGoals text rec) (hassign : Assigns text rec) (hawaits : ctx.awaits = true) (alone : Bool) :
    Ensures text (plainStatement rec ctx alone) ImportsVariables := fun c t c' hc h hgood => by
  rcases sorts_plainStatement hrec hassign alone hc rfl h with hinner | hexport | himport
  · exact importsVariables_of_isImport hinner.isImport
  · exact importsVariables_of_isImport hexport.2
  · exact ensures_importDeclaration hawaits hc himport hgood

/-! ### Notes about effects -/

/-- Notes about effects change no import. -/
theorem ImportsVariables.markPureStatement {t : Tree} (h : ImportsVariables t) :
    ImportsVariables (markPureStatement t) := by
  unfold Grammar.markPureStatement
  split
  · exact importsVariables_of_isImport rfl
  · exact importsVariables_of_isImport rfl
  · exact importsVariables_of_isImport rfl
  · exact importsVariables_of_isImport rfl
  · exact importsVariables_of_isImport rfl
  · exact h

/-- Notes about effects move nothing. -/
theorem Placed.markPureStatement {lo hi : Nat} (h : Placed text lo hi t) : Placed text lo hi (markPureStatement t) := by
  have hexport {s : Span} {label : Label} {d d' : Tree} (hd : d'.span = d.span) (hkeeps : Keeps text d d')
      (hlabel : label = .exportDecl ∨ label = .exportDefault) (h : Placed text lo hi (.node label s [d])) :
      Placed text lo hi (.node label s [d']) := by
    refine ⟨h.start, h.stop, fun hitem => h.item hitem, fun hlabel k hk => ?_, fun hlink => ?_⟩
    · obtain rfl := List.mem_singleton.1 hk
      obtain ⟨hfront, huncut⟩ := h.front hlabel d (List.mem_singleton_self _)
      exact ⟨hd ▸ hfront, huncut.keep (by rw [hd]) hkeeps.calls.subset⟩
    · rcases hlabel with rfl | rfl <;> contradiction
  unfold Grammar.markPureStatement
  split
  · exact ⟨h.start, h.stop, h.item, fun hlabel => by simp [markPureFunction] at hlabel, fun hlink => by contradiction⟩
  · exact ⟨h.start, h.stop, h.item, fun hlabel => by simp at hlabel, fun hlink => by contradiction⟩
  · exact hexport (span_markPureFunction _) (markPureFunction_keeps _) (.inr rfl) h
  · refine hexport ?_ (markPureList_keeps _ _ _ _) (.inl rfl) h
    rfl
  · exact hexport (span_markPureFunction _) (markPureFunction_keeps _) (.inl rfl) h
  · exact h

theorem ensures_statement (hrec : ReadsGoals text rec) (hassign : Assigns text rec) (hawaits : ctx.awaits = true) (alone : Bool) :
    Ensures text (statement rec ctx alone) ImportsVariables := by
  refine .quiet quiet_token fun s => ?_
  refine .seq (reads_plainStatement hrec ctx alone).quiet (ensures_plainStatement hrec hassign hawaits alone)
    (fun _ => .pure _) fun t ht => .pure ?_
  split
  · exact ht.markPureStatement
  · exact ht

theorem placed_statement (hrec : ReadsGoals text rec) (hassign : Assigns text rec) {alone : Bool} (hc : Ready text c)
    (h : statement rec ctx alone c = some (t, c')) : Placed text c.token.span.start c'.token.span.start t := by
  obtain ⟨s, _, htoken, h⟩ := run_bind_eq_some h
  obtain ⟨rfl, rfl⟩ := by simpa using htoken
  obtain ⟨u, c₁, hplain, h⟩ := run_bind_eq_some h
  obtain ⟨rfl, rfl⟩ := by simpa using h
  have hplaced := placed_plainStatement hrec hassign hc hplain
  split
  · exact hplaced.markPureStatement
  · exact hplaced

/-! ### Nested readers -/

theorem assigns_readers (n : Nat) : Assigns text (readers n) where
  begins ctx start := by
    cases n with
    | zero => exact .reject
    | succ n => exact begins_assignment
  takes ctx := by
    cases n with
    | zero => exact .reject
    | succ n => exact takes_assignment (readsGoals_readers n) ctx

theorem ensures_readers (hawaits : ctx.awaits = true) (alone : Bool) (n : Nat) :
    Ensures text (readers n (.statement ctx alone)) ImportsVariables := by
  cases n with
  | zero => exact .reject
  | succ n => exact ensures_statement (readsGoals_readers n) (assigns_readers n) hawaits alone

theorem placed_readers {n : Nat} {alone : Bool} (hc : Ready text c)
    (h : readers n (.statement ctx alone) c = some (t, c')) :
    Placed text c.token.span.start c'.token.span.start t := by
  cases n with
  | zero => simp [readers, Parse.reject] at h
  | succ n => exact placed_statement (readsGoals_readers n) (assigns_readers n) hc h

/-! ### Modules -/

theorem directive_eq {chars : List Char} {t d : Tree} (h : directive? chars t = some d) :
    ∃ raw, d = .node (.directive raw) t.span [] := by
  unfold directive? at h
  split at h
  · obtain rfl := by simpa using h
    exact ⟨_, rfl⟩
  · contradiction

theorem quiet_bodyStep (hrec : ReadsGoals text rec) (closes : TokenKind → Bool) (found : List Tree × Bool) :
    Quiet text (bodyStep rec ctx closes found) :=
  quiet_kind.bind fun _ => .ite (.pure _) ((Gives.bodyStatement hrec ctx found.2).quiet.bind fun _ => .pure _)

theorem ensures_bodyStatement (hawaits : ctx.awaits = true) (n : Nat) (inFront : Bool) :
    Ensures text (bodyStatement (readers n) ctx inFront) fun found => ImportsVariables found.1 := by
  refine .quiet quiet_get fun c => ?_
  have hquiet : Quiet text (readers n (.statement ctx false)) := Reads.quiet (readsGoals_readers n _ rfl)
  refine .seq hquiet (ensures_readers hawaits false n) (fun t => ?_) fun t ht => ?_
  · split <;> exact .pure _
  · split
    next d hd =>
      obtain ⟨raw, rfl⟩ := directive_eq hd
      exact .pure (importsVariables_of_isImport rfl)
    next => exact .pure ht

theorem ensures_bodyStatements (hawaits : ctx.awaits = true) (n : Nat) (closes : TokenKind → Bool) :
    Ensures text (bodyStatements (readers n) ctx closes) fun ts => ∀ t ∈ ts, ImportsVariables t := by
  have hquiet (found : List Tree × Bool) : Quiet text (bodyStep (readers n) ctx closes found) :=
    quiet_bodyStep (readsGoals_readers n) closes found
  have hloop : Ensures text (loop (bodyStep (readers n) ctx closes) ([], true)) fun found =>
      ∀ t ∈ found.1, ImportsVariables t := by
    refine .loop hquiet ?_ (by simp)
    rintro ⟨found, inFront⟩ hfound
    refine .quiet quiet_kind fun _ => .ite (fun _ => .pure (by simp)) fun _ => ?_
    refine .seq (Gives.bodyStatement (readsGoals_readers n) ctx inFront).quiet (ensures_bodyStatement hawaits n inFront)
      (fun _ => .pure _) fun last hlast => .pure ?_
    simpa using And.intro hlast hfound
  exact .seq (quiet_loop hquiet _) hloop (fun _ => .pure _) fun found hfound => .pure (by simpa using hfound)

/-- The names that an import of a module binds are such as a module may give to variables. -/
theorem importsVariables_parse {source : String} {script : Program} (h : parse .plainModule source = some script) :
    ∀ t ∈ script.tree.kids, ImportsVariables t := by
  obtain ⟨waits, size, c, hread, hgood, hwaits⟩ := exists_readText h
  obtain ⟨head, items, c₀, htree, hhead, hc, hbody⟩ := exists_body hread
  rw [htree]
  intro t ht
  rcases List.mem_append.1 ht with ht | ht
  · rcases hhead with rfl | ⟨line, stop, -, rfl⟩
    · contradiction
    · obtain rfl := List.mem_singleton.1 ht
      exact importsVariables_of_isImport rfl
  · exact ensures_bodyStatements (hwaits rfl) _ _ hc hbody hgood t ht

/-! ### Statements behind each other -/

/-- A statement between `lo` and `hi`, with the calls in it, each of which lies apart from the others or nests in them. -/
structure Stands (text : List Char) (lo hi : Nat) (t : Tree) : Prop extends Placed text lo hi t where
  le : lo ≤ hi
  place : IsPlace text hi
  calls : ∀ s ∈ t.calls, s.Lies text lo hi
  nested : t.calls.Pairwise Span.Nested

/-- Statements behind each other, from byte `n` on and up to byte `m`. -/
inductive Lined (text : List Char) : Nat → List Tree → Nat → Prop
  | nil {n m : Nat} (le : n ≤ m) : Lined text n [] m
  | cons {n lo hi m : Nat} {t : Tree} {ts : List Tree} (le : n ≤ lo) (stands : Stands text lo hi t)
      (rest : Lined text hi ts m) : Lined text n (t :: ts) m

theorem Lined.append {n m k : Nat} {ts us : List Tree} (h : Lined text n ts m) (h' : Lined text m us k) :
    Lined text n (ts ++ us) k := by
  induction h with
  | nil hle =>
    cases h' with
    | nil hle' => exact .nil (Nat.le_trans hle hle')
    | cons hle' hstands hrest => exact .cons (Nat.le_trans hle hle') hstands hrest
  | cons hle hstands _ ih => exact .cons hle hstands (ih h')

theorem Lined.le {n m : Nat} {ts : List Tree} (h : Lined text n ts m) : n ≤ m := by
  induction h with
  | nil hle => exact hle
  | cons hle hstands _ ih => exact Nat.le_trans hle (Nat.le_trans hstands.le ih)

theorem Lined.exists_stands {n m : Nat} {ts : List Tree} (h : Lined text n ts m) (ht : t ∈ ts) :
    ∃ lo hi, n ≤ lo ∧ hi ≤ m ∧ Stands text lo hi t := by
  induction h with
  | nil => contradiction
  | cons hle hstands hrest ih =>
    rcases List.mem_cons.1 ht with rfl | ht
    · exact ⟨_, _, hle, hrest.le, hstands⟩
    · obtain ⟨lo, hi, hlo, hhi, hfound⟩ := ih ht
      exact ⟨lo, hi, Nat.le_trans hle (Nat.le_trans hstands.le hlo), hhi, hfound⟩

theorem Lined.singleton {lo hi : Nat} (h : Stands text lo hi t) : Lined text lo [t] hi :=
  .cons (Nat.le_refl _) h (.nil (Nat.le_refl _))

theorem stands_readers {n : Nat} {alone : Bool} (hc : Ready text c)
    (h : readers n (.statement ctx alone) c = some (t, c')) :
    Stands text c.token.span.start c'.token.span.start t := by
  have hreads : Reads text (readers n (.statement ctx alone)) := readsGoals_readers n _ rfl
  obtain ⟨hmove, hspaced⟩ := hreads _ hc (Nat.le_refl _) .nil h
  have hcalls : Tree.callsAll [t] = t.calls := callsAll_singleton t
  refine ⟨placed_readers hc h, hmove.here, hmove.ready.here, fun s hs => ?_, hcalls ▸ hspaced.nested⟩
  exact (hspaced.inside s (hcalls ▸ hs)).weaken (Nat.le_refl _) hmove.ready.lastStop_le

theorem Stands.weaken {lo hi hi' : Nat} (h : Stands text lo hi t) (hle : hi ≤ hi') (hplace : IsPlace text hi') :
    Stands text lo hi' t :=
  ⟨h.toPlaced.weaken (Nat.le_refl _) hle, Nat.le_trans h.le hle, hplace,
    fun s hs => (h.calls s hs).weaken (Nat.le_refl _) hle, h.nested⟩

/-- What neither exports nor imports stands where it is, if no call stands in it. -/
theorem Stands.of_calm {lo hi : Nat} {label : Label} {span : Span} (hle : lo ≤ hi) (hplace : IsPlace text hi)
    (hstart : lo ≤ span.start) (hstop : span.stop ≤ hi) (hcalm : ∀ s ks, isModuleItem (.node label s ks) = false)
    (hcall : label.isCall = false) : Stands text lo hi (.node label span []) where
  start := hstart
  stop := hstop
  item hitem := by
    rw [hcalm] at hitem
    contradiction
  front hlabel := by
    have hnone := hcalm span []
    rcases hlabel with hlabel | hlabel <;> simp_all [isModuleItem]
  link _ := by simp [Tree.calls, hcall, Tree.callsAll]
  le := hle
  place := hplace
  calls := by simp [Tree.calls, hcall, Tree.callsAll]
  nested := by simp [Tree.calls, hcall, Tree.callsAll]

theorem yields_directive (inFront : Bool) (chars : List Char) (t : Tree) : Yields (do
    match inFront, directive? chars t with
    | true, some d => return (d, true)
    | _, _ => return (t, false)) fun found => found.1 = t ∨ ∃ raw, found.1 = .node (.directive raw) t.span [] := by
  split
  next d hd => exact .pure (.inr (directive_eq hd))
  next => exact .pure (.inl rfl)

theorem stands_bodyStatement {n : Nat} {inFront : Bool} {found : Tree × Bool} (hc : Ready text c)
    (h : bodyStatement (readers n) ctx inFront c = some (found, c')) :
    Stands text c.token.span.start c'.token.span.start found.1 := by
  obtain ⟨_, _, hget, h⟩ := run_bind_eq_some h
  obtain ⟨rfl, rfl⟩ := by simpa using hget
  obtain ⟨t, c₁, hread, h⟩ := run_bind_eq_some h
  have hstands := stands_readers hc hread
  have hmove : Onward text c₁ c' := by
    refine (?_ : Quiet text _) (Reads.quiet (readsGoals_readers n _ rfl) hc hread).ready h
    split <;> exact .pure _
  have hstands := hstands.weaken hmove.here hmove.ready.here
  -- a directive takes the place of the statement that it was read as
  rcases yields_directive _ _ t h with hsame | ⟨raw, hdirective⟩
  · rw [hsame]
    exact hstands
  · rw [hdirective]
    exact .of_calm hstands.le hstands.place hstands.start hstands.stop (fun _ _ => rfl) rfl

theorem lined_bodyStatements {n : Nat} {closes : TokenKind → Bool} {items : List Tree} (hc : Ready text c)
    (h : bodyStatements (readers n) ctx closes c = some (items, c')) :
    Lined text c.token.span.start items c'.token.span.start := by
  obtain ⟨found, c₁, hloop, h⟩ := run_bind_eq_some h
  obtain ⟨rfl, rfl⟩ := by simpa using h
  have hquiet (found : List Tree × Bool) : Quiet text (bodyStep (readers n) ctx closes found) :=
    quiet_bodyStep (readsGoals_readers n) closes found
  -- what was found so far is behind the last statement in front
  refine (loop_invariant (fun found c₁ => Ready text c₁ ∧ Lined text c.token.span.start found.1.reverse c₁.token.span.start)
    ?_ ?_ ⟨hc, .nil (Nat.le_refl _)⟩ hloop).2
  · rintro found c₁ c₂ ⟨hc₁, hlined⟩ hlast
    have hmove := hquiet found hc₁ hlast
    exact ⟨hmove.ready, by simpa using hlined.append (.nil hmove.here)⟩
  · rintro ⟨found, inFront⟩ next c₁ c₂ ⟨hc₁, hlined⟩ hnext
    refine ⟨(hquiet _ hc₁ hnext).ready, ?_⟩
    obtain ⟨k, _, hkind, hnext⟩ := run_bind_eq_some hnext
    obtain ⟨rfl, rfl⟩ := by simpa using hkind
    split at hnext
    · simp at hnext
    · obtain ⟨last, c₃, hread, hnext⟩ := run_bind_eq_some hnext
      obtain ⟨rfl, rfl⟩ := by simpa using hnext
      rw [List.reverse_cons]
      exact hlined.append (.singleton (stands_bodyStatement hc₁ hread))

/-- The statements of a module stand behind each other in its text. -/
theorem lined_parse {source : String} {script : Program} (h : parse .plainModule source = some script) :
    ∃ m, Lined source.toList 0 script.tree.kids m := by
  obtain ⟨waits, size, c, hread, -⟩ := exists_readText h
  obtain ⟨head, items, c₀, htree, hhead, hc, hbody⟩ := exists_body hread
  have hitems := lined_bodyStatements hc hbody
  refine ⟨c.token.span.start, ?_⟩
  rw [htree]
  rcases hhead with rfl | ⟨line, stop, hstop, rfl⟩
  · exact Lined.append (.nil (Nat.zero_le _)) hitems
  · have hline : Stands source.toList 0 c₀.token.span.start (.node (.hashbang line) ⟨0, stop⟩ []) :=
      .of_calm (Nat.zero_le _) hc.here (Nat.le_refl _) hstop (fun _ _ => rfl) rfl
    exact (Lined.singleton hline).append hitems

end LiveNotes.Script
