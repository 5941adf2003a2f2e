import LiveNotes.Proofs.Script.Grammar.Statements
import LiveNotes.Proofs.Script.Patterns

/-! The names that the imports of a module bind are such as a module may give to variables. -/

namespace LiveNotes.Script

open Parse Grammar

/-- What a part of an import binds. -/
def partTaken? (k : Tree) : Option Taken :=
  match k.label with
  | .importName imported x _ => some ⟨x, some imported.text⟩
  | .importDefault x => some ⟨x, some "default"⟩
  | .importAll x => some ⟨x, none⟩
  | _ => none

/-- A part of an import binds a variable, if it binds a name. -/
def BindsVariable (k : Tree) : Prop := ∀ t ∈ partTaken? k, IsVariable t.name

namespace Label

def isImport : Label → Bool
  | .importDecl _ _ _ _ => true
  | _ => false

end Label

/-- A statement is no import, or all its parts bind variables. -/
def ImportsVariables (t : Tree) : Prop := t.label.isImport = true → ∀ k ∈ t.kids, BindsVariable k

theorem importsVariables_of_isImport {t : Tree} (h : t.label.isImport = false) : ImportsVariables t := fun himport => by
  rw [h] at himport
  contradiction

/-- What the reader returns has the property, unless it finds a fault. -/
def Ensures {α : Type} (text : List Char) (p : Parse α) (holds : α → Prop) : Prop :=
  ∀ ⦃c a c'⦄, Ready text c → p c = some (a, c') → c'.flawed = false → holds a

variable {text : List Char} {ctx : Context} {c c' : Cursor} {α β : Type} {p : Parse α}
  {q : α → Parse β} {holds : β → Prop}

theorem flawed_of_onward (h : Onward text c c') (hgood : c'.flawed = false) : c.flawed = false := by
  rw [← Bool.not_eq_true] at hgood ⊢
  exact fun hflawed => hgood (h.flawed hflawed)

namespace Ensures

theorem pure {b : β} (h : holds b) : Ensures text (Pure.pure b) holds := fun _ _ _ _ hrun _ => by
  obtain ⟨rfl, _⟩ := by simpa using hrun
  exact h

theorem reject : Ensures text (Parse.reject : Parse β) holds := fun _ _ _ _ hrun _ => by
  simp [Parse.reject] at hrun

theorem rejectBind : Ensures text ((Parse.reject : Parse α) >>= q) holds := fun _ _ _ _ hrun _ => by
  simp [Parse.reject] at hrun

theorem of_yields {p : Parse β} (h : Yields p holds) : Ensures text p holds := fun _ _ _ _ hrun _ => h hrun

theorem quietWith {first : α → Prop} (hp : Quiet text p) (hyields : Yields p first)
    (hq : ∀ a, first a → Ensures text (q a) holds) : Ensures text (p >>= q) holds := by
  intro c b c'' hc hrun hgood
  obtain ⟨a, c', hfirst, hrest⟩ := run_bind_eq_some hrun
  exact hq a (hyields hfirst) (hp hc hfirst).ready hrest hgood

theorem quiet (hp : Quiet text p) (hq : ∀ a, Ensures text (q a) holds) : Ensures text (p >>= q) holds :=
  .quietWith hp (fun _ _ _ _ => trivial : Yields p fun _ => True) fun a _ => hq a

theorem seq {first : α → Prop} (hp : Quiet text p) (hfirst : Ensures text p first) (hq : ∀ a, Quiet text (q a))
    (hrest : ∀ a, first a → Ensures text (q a) holds) : Ensures text (p >>= q) holds := by
  intro c b c'' hc hrun hgood
  obtain ⟨a, c', hrun, hmore⟩ := run_bind_eq_some hrun
  have hc' := (hp hc hrun).ready
  have hholds := hfirst hc hrun (flawed_of_onward (hq a hc' hmore) hgood)
  exact hrest a hholds hc' hmore hgood

theorem types {q : Bool → Parse β} (hq : Ensures text (q false) holds) : Ensures text (typesAllowed >>= q) holds := by
  intro c b c'' hc hrun hgood
  obtain ⟨a, c', hfirst, hrest⟩ := run_bind_eq_some hrun
  obtain ⟨rfl, rfl⟩ := by simpa [hc.plain] using hfirst
  exact hq hc hrest hgood

theorem ite {b : Prop} [Decidable b] {p q : Parse β} (hp : b → Ensures text p holds) (hq : ¬ b → Ensures text q holds) :
    Ensures text (if b then p else q) holds := by
  split
  next h => exact hp h
  next h => exact hq h

theorem finish {label : Label} {start : Nat} {ks : List Tree} {holds : Tree → Prop}
    (h : ∀ span, holds (.node label span ks)) : Ensures text (finish label start ks) holds := of_yields (.finish h)

theorem finishBind {label : Label} {start : Nat} {ks : List Tree} {q : Tree → Parse β}
    (hq : ∀ span, Ensures text (q (.node label span ks)) holds) :
    Ensures text (Parse.finish label start ks >>= q) holds := by
  intro c b c'' hc hrun hgood
  obtain ⟨t, c', hfirst, hrest⟩ := run_bind_eq_some hrun
  obtain ⟨rfl, rfl⟩ := by simpa using hfirst
  exact hq _ hc hrest hgood

/-- The token is a name, or else no word. -/
theorem word {q : TokenKind → Parse β}
    (hword : ∀ w escaped, isIdentifierName w = true → Ensures text (q (.word w escaped)) holds)
    (hother : ∀ k : TokenKind, k.isWord = false → Ensures text (q k) holds) : Ensures text (kind >>= q) holds := by
  intro c b c'' hc hrun hgood
  obtain ⟨k, c', hkind, hrest⟩ := run_bind_eq_some hrun
  obtain ⟨rfl, rfl⟩ := by simpa using hkind
  cases hk : c.token.kind with
  | word w escaped => exact hword w escaped (hc.name w escaped hk) hc (hk ▸ hrest) hgood
  | _ => exact hother _ (by rw [hk]; rfl) hc hrest hgood

/-- What every step keeps holds when a loop stops. -/
theorem loop {step : α → Parse (Option α)} {holds : α → Prop} (hquiet : ∀ a, Quiet text (step a))
    (hstep : ∀ a, holds a → Ensures text (step a) fun next? => ∀ b ∈ next?, holds b) {a : α} (ha : holds a) :
    Ensures text (Parse.loop step a) holds := by
  intro c b c' hc hrun hgood
  have hkept : Ready text c' ∧ (c'.flawed = false → holds b) := by
    refine loop_invariant (fun a c => Ready text c ∧ (c.flawed = false → holds a)) ?_ ?_ ⟨hc, fun _ => ha⟩ hrun
    · rintro a c c' ⟨hc, ha⟩ hlast
      have hmove := hquiet a hc hlast
      exact ⟨hmove.ready, fun hgood => ha (flawed_of_onward hmove hgood)⟩
    · rintro a b c c' ⟨hc, ha⟩ hnext
      have hmove := hquiet a hc hnext
      exact ⟨hmove.ready, fun hgood => hstep a (ha (flawed_of_onward hmove hgood)) hc hnext hgood b rfl⟩
  exact hkept.2 hgood

end Ensures

theorem Ensures.commaList {item : Parse α} {holds : α → Prop} (hquiet : Quiet text item) (h : Ensures text item holds)
    (close : Punct) : Ensures text (Grammar.commaList close item) fun found => ∀ a ∈ found, holds a := by
  have hloop : Ensures text (Parse.loop (commaStep close item) ([], false)) fun found => ∀ a ∈ found.1, holds a := by
    refine .loop (quiet_commaStep hquiet close) ?_ (by simp)
    rintro ⟨before, comma⟩ hbefore
    refine .quiet (quiet_atPunct close) fun _ => .ite (fun _ => .pure (by simp)) fun _ => ?_
    refine .seq hquiet h (fun a => ?_) fun a ha => .quiet (quiet_eatPunct .comma) fun _ => ?_
    · refine (quiet_eatPunct .comma).bind fun _ => .ite (.pure _) ((quiet_atPunct close).bind fun _ => ?_)
      exact .ite (.pure _) (Quiet.reject.bind fun _ => .pure _)
    · have hmore : ∀ x ∈ a :: before, holds x := List.forall_mem_cons.2 ⟨ha, hbefore⟩
      refine .ite (fun _ => .pure (by simpa using hmore)) fun _ => .quiet (quiet_atPunct close) fun _ => ?_
      exact .ite (fun _ => .pure (by simpa using hmore)) fun _ => .rejectBind
  refine .seq (.bind (quiet_loop (quiet_commaStep hquiet close) _) fun _ => .pure _) ?_ (fun _ => .pure _)
    fun _ h => .pure h
  exact .seq (quiet_loop (quiet_commaStep hquiet close) _) hloop (fun _ => .pure _) fun _ h => .pure (by simpa using h)

/-! ### Names -/

theorem ensures_flawIf (b : Bool) : Ensures text (flawIf b) fun _ => b = false := by
  intro c u c' _ hrun hgood
  cases b with
  | false => rfl
  | true =>
    obtain rfl : { c with flawed := true } = c' := by
      simpa [flawIf, flaw, modify, modifyGet, MonadStateOf.modifyGet, StateT.modifyGet] using hrun
    exact hgood

theorem ensures_useName (hawaits : ctx.awaits = true) (w : String) :
    Ensures text (useName ctx w) fun _ => w ≠ "await" := by
  have hrest (b : Bool) :
      Quiet text (if b then modify ({ · with namesAwait := true }) else Pure.pure () : Parse Unit) :=
    .ite (quiet_modify fun _ h => ⟨{ h with }, Nat.le_refl _, Nat.le_refl _, id⟩) (.pure _)
  refine .seq (quiet_flawIf _) (ensures_flawIf _) (fun _ => hrest _) fun _ hfree _ _ _ _ _ _ => ?_
  rintro rfl
  simp [hawaits] at hfree

theorem ensures_identifierText (hawaits : ctx.awaits = true) : Ensures text (identifierText ctx) IsVariable := by
  refine .word (fun w escaped hname => ?_) fun k hk => ?_
  · refine .ite (fun _ => .rejectBind) fun hreserved => ?_
    refine .seq (quiet_useName ctx w) (ensures_useName hawaits w) (fun _ => by simp) fun _ hfree => ?_
    exact .quiet quiet_advance fun _ => .pure ⟨hname, by simpa using hreserved, hfree⟩
  · split
    · contradiction
    · exact .reject

/-- A name that another module gives is one of this language, unless it stands in quotes. -/
def IsNamed (n : ExportedName) : Prop := n.quoted = false → isIdentifierName n.text = true

theorem ensures_exportedName : Ensures text exportedName IsNamed := by
  refine .word (fun w escaped hname => .quiet quiet_advance fun _ => .pure fun _ => hname) fun k hk => ?_
  split
  · contradiction
  · exact .quiet (quiet_flawIf _) fun _ => .quiet quiet_advance fun _ => .pure fun hquoted => by contradiction
  · exact .reject

theorem ensures_specifier (inTypes : Bool) : Ensures text (specifier inTypes) fun s => IsNamed s.other := by
  have hrenamed {first : ExportedName} (hfirst : IsNamed first) :
      Ensures text (renamed first false) fun s => IsNamed s.other := by
    refine .quiet (quiet_eatWord _) fun _ => .ite (fun _ => ?_) fun _ => .pure hfirst
    exact .seq quiet_exportedName ensures_exportedName (fun _ => .pure _) fun _ h => .pure h
  have hrest (first : ExportedName) : Quiet text (do
      let s ← renamed first false
      flawIf (inTypes && s.typeOnly)
      pure s) := (quiet_renamed _ _).bind fun _ => (quiet_flawIf _).bind fun _ => .pure _
  refine .types (.quiet (quiet_atWord _) fun _ => .seq quiet_exportedName ensures_exportedName (fun first => ?_) ?_)
  · exact (quiet_atWord _).bind fun _ => quiet_atExportedName.bind fun _ => hrest first
  · refine fun first hfirst => .quiet (quiet_atWord _) fun _ => .quiet quiet_atExportedName fun _ => ?_
    exact .seq (quiet_renamed _ _) (hrenamed hfirst) (fun _ => (quiet_flawIf _).bind fun _ => .pure _)
      fun s hs => .quiet (quiet_flawIf _) fun _ => .pure hs

/-! ### Imports -/

theorem ensures_importName (hawaits : ctx.awaits = true) (inTypes : Bool) :
    Ensures text (importName ctx inTypes) BindsVariable := by
  refine .quiet quiet_here fun start => .seq (quiet_specifier _) (ensures_specifier _) (fun s => ?_) fun s hs => ?_
  · have hrest : Quiet text (do
        useName ctx s.other.text
        finish (.importName s.name s.other.text s.typeOnly) start []) :=
      (quiet_useName _ _).bind fun _ => quiet_finish _ _ _
    exact .ite hrest (Quiet.reject.bind fun _ => hrest)
  · refine .ite (fun hbinds => ?_) fun _ => .rejectBind
    refine .seq (quiet_useName _ _) (ensures_useName hawaits _) (fun _ => quiet_finish _ _ _) fun _ hfree => ?_
    refine .finish fun _ t ht => ?_
    obtain rfl := by simpa [partTaken?] using ht
    obtain ⟨hquoted, hreserved⟩ : s.other.quoted = false ∧ isReserved s.other.text = false := by
      simpa [bindsVariable] using hbinds
    exact ⟨hs hquoted, hreserved, hfree⟩

theorem ensures_importAll (hawaits : ctx.awaits = true) : Ensures text (importAll ctx) BindsVariable := by
  refine .quiet quiet_here fun start => .quiet (quiet_expectPunct _) fun _ => .quiet (quiet_expectWord _) fun _ => ?_
  refine .seq (quiet_identifierText ctx) (ensures_identifierText hawaits) (fun _ => quiet_finish _ _ _) fun x hx => ?_
  refine .finish fun _ t ht => ?_
  obtain rfl := by simpa [partTaken?] using ht
  exact hx

theorem ensures_importNames (hawaits : ctx.awaits = true) (inTypes : Bool) :
    Ensures text (importNames ctx inTypes) fun ks => ∀ k ∈ ks, BindsVariable k := by
  refine .quiet (quiet_atPunct _) fun _ => .ite (fun _ => ?_) fun _ => .quiet (quiet_expectPunct _) fun _ => ?_
  · refine .seq (quiet_importAll ctx) (ensures_importAll hawaits) (fun _ => .pure _) fun k hk => .pure ?_
    simpa using hk
  · have hlist : Ensures text (Grammar.commaList .rightBrace (importName ctx inTypes)) fun ks =>
        ∀ k ∈ ks, BindsVariable k :=
      .commaList (quiet_importName ctx inTypes) (ensures_importName hawaits inTypes) _
    refine .seq (quiet_commaList (quiet_importName ctx inTypes) _) hlist (fun _ => ?_) fun ks hks => ?_
    · exact (quiet_expectPunct _).bind fun _ => .pure _
    · exact .quiet (quiet_expectPunct _) fun _ => .pure hks

theorem yields_importAttributes_bind : Yields importAttributes fun ks => ∀ k ∈ ks, BindsVariable k := by
  refine .bind fun start => .bind fun w? => ?_
  cases w? with
  | none => exact .pure (by simp)
  | some w =>
    refine .bind fun _ => .bind fun _ => .bind fun entries => .bind fun _ => .bind fun _ => ?_
    have hnone : ∀ span, BindsVariable (.node (.importAttributes w entries) span []) := fun _ _ ht => by
      simp [partTaken?] at ht
    exact .seq (.finish hnone) fun t ht => .pure (by simpa using ht)

theorem quiet_importFrom (start : Nat) (h : ImportHead) (ks : List Tree) : Quiet text (importFrom start h ks) := by
  refine (quiet_expectWord _).bind fun _ => quiet_sourceText.bind fun _ => quiet_importAttributes.bind fun _ => ?_
  exact quiet_endStatement.bind fun _ => quiet_finish _ _ _

theorem ensures_importFrom {start : Nat} {h : ImportHead} {ks : List Tree} (hks : ∀ k ∈ ks, BindsVariable k) :
    Ensures text (importFrom start h ks) ImportsVariables := by
  refine .quiet (quiet_expectWord _) fun _ => .quiet quiet_sourceText fun source => ?_
  refine .seq quiet_importAttributes (.of_yields yields_importAttributes_bind) (fun _ => ?_) fun ks' hks' => ?_
  · exact quiet_endStatement.bind fun _ => quiet_finish _ _ _
  · exact .quiet quiet_endStatement fun _ => .finish fun _ _ => List.forall_mem_append.2 ⟨hks, hks'⟩

theorem ensures_importClause (hawaits : ctx.awaits = true) (start : Nat) (h : ImportHead) :
    Ensures text (importClause ctx start h) ImportsVariables := by
  refine .quiet (quiet_atPunct _) fun _ => .quiet (quiet_atPunct _) fun _ => .ite (fun _ => ?_) fun _ => ?_
  · exact .seq (quiet_importNames _ _) (ensures_importNames hawaits _) (quiet_importFrom start h)
      fun _ => ensures_importFrom
  · refine .quiet quiet_here fun nameStart => ?_
    refine .seq (quiet_identifierText ctx) (ensures_identifierText hawaits) (fun x => ?_) fun x hx => ?_
    · refine .types ((quiet_atPunct _).bind fun _ => (quiet_finish _ _ _).bind fun name => ?_)
      refine (quiet_eatPunct _).bind fun _ => .ite ((quiet_flawIf _).bind fun _ => (quiet_importNames _ _).bind fun _ => ?_) (quiet_importFrom _ _ _)
      exact quiet_importFrom _ _ _
    · refine .types (.quiet (quiet_atPunct _) fun _ => .finishBind fun span => .quiet (quiet_eatPunct _) fun _ => ?_)
      have hname : BindsVariable (.node (.importDefault x) span []) := fun t ht => by
        obtain rfl := by simpa [partTaken?] using ht
        exact hx
      refine .ite (fun _ => .quiet (quiet_flawIf _) fun _ => ?_) fun _ => ensures_importFrom (by simpa using hname)
      exact .seq (quiet_importNames _ _) (ensures_importNames hawaits _) (fun _ => quiet_importFrom _ _ _)
        fun ks hks => ensures_importFrom (List.forall_mem_cons.2 ⟨hname, hks⟩)

theorem ensures_importDeclaration (hawaits : ctx.awaits = true) :
    Ensures text (importDeclaration ctx) ImportsVariables := by
  refine .quiet quiet_here fun start => .quiet (quiet_expectWord _) fun _ => .quiet quiet_kind fun k => ?_
  split
  · refine .quiet quiet_advance fun _ => ?_
    refine .seq quiet_importAttributes (.of_yields yields_importAttributes_bind) (fun _ => ?_) fun ks hks => ?_
    · exact quiet_endStatement.bind fun _ => quiet_finish _ _ _
    · exact .quiet quiet_endStatement fun _ => .finish fun _ _ => hks
  · exact .quiet quiet_importHead fun h => ensures_importClause hawaits start h

end LiveNotes.Script
