import LiveNotes.Proofs.Document.Ownership
import LiveNotes.Proofs.Vault.Path

/-! Several documents in one graph. The passes over one document leave the scopes of another as they are, as
long as no id belongs to both. But the page of one document may have the id of a fragment of another one; then
a pass over the one takes the page of the other away. -/

namespace LiveNotes

open ScopeGraph Relation

variable {V : Type}

/-- A scope is there, stands where it stood, and holds what it held. -/
structure ScopeGraph.Keeps (g g' : ScopeGraph V) (id : String) : Prop where
  live : g'.isLive id = g.isLive id
  parent : g'.parent? id = g.parent? id
  children : g'.children id = g.children id
  blocked : g'.isBlocked id = g.isBlocked id
  bindings : g'.bindings id = g.bindings id

/-- A graph that comes of passes over some documents, side by side. Meanwhile scopes may be bound, emptied,
blocked and listened to in any way. -/
inductive Shared (newKey : KeySource) (e : Evaluator V) (D : DocumentKey → Prop) : ScopeGraph V → Prop
  | new : Shared newKey e D .new
  | step {g g' : ScopeGraph V} {d : DocumentKey} : D d → d.Step newKey e g g' → Shared newKey e D g →
      Shared newKey e D g'
  | operate {g : ScopeGraph V} (op : Operation V) : op.KeepsLinks → Shared newKey e D g →
      Shared newKey e D (op.apply g)

/-- Both sides of all links agree, and the links of scopes stay within one document, up to the root. -/
structure ScopeGraph.Apart (D : DocumentKey → Prop) (g : ScopeGraph V) : Prop where
  linked : g.Linked
  within : ∀ n p, g.parent? n = some p →
    (p = rootScopeId ∧ ∃ d, D d ∧ n = d.scopeId) ∨ ∃ d, D d ∧ d.Owns n ∧ d.Owns p

/-! ### Scopes of other documents -/

namespace ScopeGraph.Apart

variable {D : DocumentKey → Prop} {P Q : DocumentKey} {g : ScopeGraph V} {a b n : String}

theorem apart_new : (new : ScopeGraph V).Apart D where
  linked := linked_new
  within n p hp := by
    rw [parent?_new] at hp
    contradiction

theorem apply (h : g.Apart D) (op : Operation V) (hop : ∀ p c, op = .child p c →
    (p = rootScopeId ∧ ∃ d, D d ∧ c = d.scopeId) ∨ ∃ d, D d ∧ d.Owns c ∧ d.Owns p) :
    (op.apply g).Apart D where
  linked := h.linked.apply op
  within n p hp := by
    rcases parent?_of_apply op hp with hold | ⟨heq, -⟩
    · exact h.within n p hold
    · exact hop p n heq

theorem apply_of_within (h : g.Apart D) (hP : D P) {op : Operation V} (hop : op.Within P) :
    (op.apply g).Apart D := by
  refine h.apply op ?_
  rintro p c rfl
  rcases hop with ⟨hroot, hpage⟩ | ⟨hp, hc⟩
  · exact Or.inl ⟨hroot, P, hP, hpage⟩
  · exact Or.inr ⟨P, hP, hc, hp⟩

theorem apply_of_keepsLinks (h : g.Apart D) {op : Operation V} (hop : op.KeepsLinks) :
    (op.apply g).Apart D := by
  refine h.apply op ?_
  rintro p c rfl
  contradiction

theorem leads (h : g.Apart D) (hP : D P) {g' : ScopeGraph V} (hleads : P.Leads g g') : g'.Apart D := by
  obtain ⟨ops, hops, rfl⟩ := hleads
  induction ops generalizing g with
  | nil => exact h
  | cons op ops ih =>
    exact ih (h.apply_of_within hP (hops op List.mem_cons_self))
      fun o ho => hops o (List.mem_cons_of_mem op ho)

section

variable (hclear : ∀ P Q, D P → D Q → ¬ P.Clashes Q) (hP : D P) (hQ : D Q)

include hclear hP

theorem owns_parent (h : g.Apart D) (hn : P.Owns n) (hup : g.parent? n = some a) :
    a = rootScopeId ∨ P.Owns a := by
  rcases h.within n a hup with ⟨hroot, -⟩ | ⟨d, hd, hdn, hda⟩
  · exact Or.inl hroot
  · obtain rfl := DocumentKey.eq_of_owns (hclear d P hd hP) (hclear P d hP hd) hdn hn
    exact Or.inr hda

/-- All below a scope of a document belongs to the document. -/
theorem owns_of_below (h : g.Apart D) (ha : P.Owns a) (hbelow : g.Below a b) : P.Owns b := by
  induction hbelow with
  | refl => exact ha
  | @tail b c _ hc ih =>
    have hup : g.parent? c = some b := h.linked.mem_children_iff.1 hc
    rcases h.within c b hup with ⟨hroot, -⟩ | ⟨d, hd, hdc, hdb⟩
    · exact absurd hroot ih.ne_root
    · obtain rfl := DocumentKey.eq_of_owns (hclear d P hd hP) (hclear P d hP hd) hdb ih
      exact hdc

include hQ

theorem ne_of_owns (hne : P ≠ Q) (ha : P.Owns a) (hn : Q.Owns n) : n ≠ a := by
  rintro rfl
  exact hne (DocumentKey.eq_of_owns (hclear P Q hP hQ) (hclear Q P hQ hP) ha hn)

theorem scope?_apply (h : g.Apart D) (hne : P ≠ Q) {op : Operation V} (hop : op.Within P)
    (hn : Q.Owns n) : (op.apply g).scope? n = g.scope? n := by
  -- Of a scope of the one document no link leads to one of the other, neither upwards nor downwards.
  have hapart : ∀ {a}, P.Owns a → n ≠ a := fun ha => ne_of_owns hclear hP hQ hne ha hn
  have hup : ∀ {a}, P.Owns a → g.parent? a ≠ some n := by
    intro a ha hup
    rcases owns_parent hclear hP h ha hup with hroot | hown
    · exact hn.ne_root hroot
    · exact hapart hown rfl
  have hbelow : ∀ {a}, P.Owns a → ¬ g.Below a n := by
    intro a ha hbelow
    exact hapart (owns_of_below hclear hP h ha hbelow) rfl
  cases op with
  | child p c =>
    rcases hop with ⟨rfl, rfl⟩ | ⟨hp, hc⟩
    · have hc := DocumentKey.Owns.page P
      exact scope?_child_of_ne (hapart hc) hn.ne_root (hup hc)
    · exact scope?_child_of_ne (hapart hc) (hapart hp) (hup hc)
  | setMany id bindings => exact (scope?_setMany g id bindings n).trans (if_neg (hapart hop))
  | reset id => exact (scope?_reset g id n).trans (if_neg (hapart hop))
  | block id => exact (scope?_block g id n).trans (if_neg (hapart hop))
  | unblock id => exact (scope?_unblock g id n).trans (if_neg (hapart hop))
  | dispose id =>
    have hkept := h.linked.scope?_dispose_of_not_below (hbelow hop)
    exact hkept.trans (if_neg (hup hop))
  | disposeDescendants id => exact scope?_disposeDescendants_of_not_below (hbelow hop)
  | listen id name => exact (scope?_listen g id name n).trans (if_neg (hapart hop))
  | unlisten id number => exact (scope?_unlisten g id number n).trans (if_neg (hapart hop))

theorem scope?_leads (h : g.Apart D) (hne : P ≠ Q) {g' : ScopeGraph V} (hleads : P.Leads g g')
    (hn : Q.Owns n) : g'.scope? n = g.scope? n := by
  obtain ⟨ops, hops, rfl⟩ := hleads
  induction ops generalizing g with
  | nil => rfl
  | cons op ops ih =>
    have hop := hops op List.mem_cons_self
    have hrest := ih (h.apply_of_within hP hop) fun o ho => hops o (List.mem_cons_of_mem op ho)
    exact hrest.trans (scope?_apply hclear hP hQ h hne hop hn)

end

end ScopeGraph.Apart

theorem Shared.apart {newKey : KeySource} {e : Evaluator V} {D : DocumentKey → Prop} {g : ScopeGraph V}
    (h : Shared newKey e D g) : g.Apart D := by
  induction h with
  | new => exact Apart.apart_new
  | step hd hstep _ ih => exact ih.leads hd (DocumentKey.Leads.step hstep)
  | operate op hop _ ih => exact ih.apply_of_keepsLinks hop

theorem ScopeGraph.keeps_of_scope? {g g' : ScopeGraph V} {id : String} (h : g'.scope? id = g.scope? id) :
    g.Keeps g' id where
  live := by rw [isLive_eq, isLive_eq, h]
  parent := parent?_congr h
  children := children_congr h
  blocked := by
    unfold isBlocked
    rw [h]
  bindings := by
    unfold bindings
    rw [h]

/-! ### Documents of any length -/

/-- Blocks of markup without content, one after the other. -/
def blocksText (count : Nat) : List Char := (List.replicate count "```ldsh\n```\n".toList).flatten

theorem splitChar_blocksText (count : Nat) : Text.splitChar '\n' (blocksText (count + 1)) =
    "```ldsh".toList :: "```".toList :: Text.splitChar '\n' (blocksText count) := by
  have hopen : '\n' ∉ "```ldsh".toList := by decide
  have hclose : '\n' ∉ "```".toList := by decide
  have htext : blocksText (count + 1) =
      "```ldsh".toList ++ '\n' :: ("```".toList ++ '\n' :: blocksText count) := by
    unfold blocksText
    rw [List.replicate_succ, List.flatten_cons]
    rfl
  rw [htext, Text.splitChar_append hopen, Text.splitChar_append hclose]

theorem scanLines_block (first second line : Nat) (rest : List Document.Line) :
    ∃ f, Document.scanLines none none line (⟨first, "```ldsh".toList⟩ :: ⟨second, "```".toList⟩ :: rest) =
      f :: Document.scanLines none none (line + 2) rest := by
  have hfence : Document.fence? "```ldsh".toList = some ⟨Document.backtick, 3, "ldsh".toList⟩ := by decide
  have hclosed : Document.Fence.closedBy ⟨Document.backtick, 3, "ldsh".toList⟩ "```".toList = true := by
    decide
  have hkind : Document.blockKind? "ldsh".toList = some (.blockMarkup, none) := by decide
  simp only [Document.scanLines, hfence, hclosed, if_true, Document.OpenBlock.close, hkind]
  exact ⟨_, rfl⟩

theorem length_scanLines_blocksText (start line count : Nat) :
    (Document.scanLines none none line
      (Document.placeLines start (Text.splitChar '\n' (blocksText count)))).length = count := by
  induction count generalizing start line with
  | zero => rfl
  | succ count ih =>
    obtain ⟨piece, pieces, hrest⟩ := List.exists_cons_of_ne_nil
      (Text.splitChar_ne_nil '\n' (blocksText count))
    have hplaced : ∃ second next, Document.placeLines start (Text.splitChar '\n' (blocksText (count + 1))) =
        ⟨start, "```ldsh".toList⟩ :: ⟨second, "```".toList⟩ ::
          Document.placeLines next (Text.splitChar '\n' (blocksText count)) := by
      rw [splitChar_blocksText, hrest]
      exact ⟨_, _, rfl⟩
    obtain ⟨second, next, hplaced⟩ := hplaced
    obtain ⟨f, hblock⟩ := scanLines_block start second line
      (Document.placeLines next (Text.splitChar '\n' (blocksText count)))
    rw [hplaced, hblock, List.length_cons, ih]

theorem length_scan_blocksText (count : Nat) :
    (Document.scan (String.ofList (blocksText count)) none).length = count := by
  unfold Document.scan Document.lines
  rw [String.toList_ofList]
  exact length_scanLines_blocksText 0 0 count

/-! ### Clashes -/

/-- The scopes when a reading view of a document has begun. -/
def DocumentKey.opened (d : DocumentKey) (text : String) (g : ScopeGraph V) : ScopeGraph V :=
  let p : Preview V := { document := d, text := text }
  (p.enter { id := d.scopeId } (p.withPage { graph := g, desk := { store := default } })).2.graph

theorem DocumentKey.step_opened (newKey : KeySource) (e : Evaluator V) (d : DocumentKey) (text : String)
    (g : ScopeGraph V) : d.Step newKey e g (d.opened text g) := by
  let p : Preview V := { document := d, text := text }
  let w : World V := { graph := g, desk := { store := default } }
  have hmove : Preview.Moves e (p, w) (p.enter { id := d.scopeId } (p.withPage w)) := .start rfl
  refine .preview rfl ?_ hmove
  intro jobs hjobs
  contradiction

/-- A reading view that has not to wait empties its page and makes the scopes of all fragments at once. -/
theorem opened_eq {d : DocumentKey} {text : String} {g : ScopeGraph V}
    (hgo : (g.child rootScopeId d.scopeId).letsGo { id := d.scopeId } = true) :
    d.opened text g = (Preview.chain d.scopeId 0 d.scopeId (Document.scan text none)
      ((g.child rootScopeId d.scopeId).disposeDescendants d.scopeId)).2 := by
  let p : Preview V := { document := d, text := text }
  let w : World V := { graph := g, desk := { store := default } }
  have henter : p.enter { id := d.scopeId } (p.withPage w) = p.rebuild (p.withPage w) := if_pos hgo
  exact congrArg (fun r : Preview V × World V => r.2.graph) henter

theorem spine_opened (d : DocumentKey) (text : String) :
    (d.opened text (new : ScopeGraph V)).Spine d.scopeId ((Document.scan text none).length + 2) := by
  have hinj := spine_injective d
  have hpage : ((new : ScopeGraph V).child rootScopeId d.scopeId).Spine d.scopeId 2 :=
    (spine_new d.scopeId).grow hinj Nat.one_pos
  have hgo : ((new : ScopeGraph V).child rootScopeId d.scopeId).letsGo { id := d.scopeId } = true := by
    have hne : d.scopeId ≠ rootScopeId := (DocumentKey.Owns.page d).ne_root
    have hdead : (new : ScopeGraph V).scope? d.scopeId = none :=
      (spine_new d.scopeId).scope?_eq_none hinj (Nat.le_refl 1)
    have hscope : ((new : ScopeGraph V).child rootScopeId d.scopeId).scope? d.scopeId =
        some { parent := some rootScopeId, birth := 1 } := scope?_child_of_dead hne rfl hdead
    unfold letsGo
    rw [hscope]
    rfl
  rw [opened_eq hgo, Nat.add_comm]
  exact Preview.spine_chain (hpage.trim hinj (k := 1) (Nat.lt_succ_self 1)) hinj

/-- A document with enough fragments has the scope of the page that it clashes with. -/
theorem exists_step_of_clashes (newKey : KeySource) (e : Evaluator V) {P Q : DocumentKey} (h : P.Clashes Q) :
    ∃ g' : ScopeGraph V, P.Step newKey e new g' ∧ g'.isLive Q.scopeId = true := by
  obtain ⟨i, hi⟩ := h
  have hspine := spine_opened (V := V) P (String.ofList (blocksText (i + 1)))
  rw [length_scan_blocksText] at hspine
  refine ⟨P.opened (String.ofList (blocksText (i + 1))) new, P.step_opened newKey e _ new, ?_⟩
  rw [hi]
  exact hspine.isLive (i := i + 2) (Nat.lt_succ_self _)

/-- Passes over some documents, in any order and side by side, never touch scopes of a document other than
their own exactly when no page of these has the id of a fragment of another one. -/
theorem keeps_iff_not_clashes (newKey : KeySource) (e : Evaluator V) (D : DocumentKey → Prop) :
    (∀ g g' : ScopeGraph V, Shared newKey e D g → ∀ P Q, D P → D Q → P ≠ Q → P.Passes newKey e g g' →
        ∀ id, Q.Owns id → g.Keeps g' id) ↔
      ∀ P Q, D P → D Q → ¬ P.Clashes Q := by
  constructor
  · intro hkeeps P Q hP hQ hclash
    have hne : P ≠ Q := by
      rintro rfl
      obtain ⟨i, hi⟩ := hclash
      exact fragmentScopeId_ne _ i hi.symm
    -- The page of the other document is not there in a new graph, but after one view of this one it is.
    obtain ⟨g', hstep, hlive⟩ := exists_step_of_clashes newKey e hclash
    have hpage := hkeeps new g' .new P Q hP hQ hne (ReflTransGen.single hstep) _ (DocumentKey.Owns.page Q)
    have hdead : (new : ScopeGraph V).isLive (spine Q.scopeId 1) = true ↔ 1 < 1 :=
      (spine_new Q.scopeId).isLive_iff (spine_injective Q)
    rw [hpage.live] at hlive
    exact absurd (hdead.1 hlive) (Nat.lt_irrefl 1)
  · intro hclear g g' hg P Q hP hQ hne hpasses id hid
    exact keeps_of_scope?
      (hg.apart.scope?_leads hclear hP hQ hne (DocumentKey.Leads.passes hpasses) hid)

def outer : DocumentKey := .anonymous "1"

/-- Its page has the id of the first fragment of the other document. -/
def inner : DocumentKey := .anonymous "1/0"

def innerBound : ScopeGraph String := (Operation.setMany inner.scopeId [("x", "1")]).apply (inner.opened "" new)

/-- Both pages are there, and the outer one is made empty. -/
def outerEmptied : ScopeGraph String :=
  (innerBound.child rootScopeId outer.scopeId).modify outer.scopeId fun s => { s with children := [] }

theorem innerBound_eq : innerBound = (Operation.setMany inner.scopeId [("x", "1")]).apply
    ((new.child rootScopeId inner.scopeId).modify inner.scopeId fun s => { s with children := [] }) := by
  have hpage : (new.child rootScopeId inner.scopeId : ScopeGraph String).scope? inner.scopeId =
      some { parent := some rootScopeId, birth := 1 } := rfl
  unfold innerBound
  rw [opened_eq (by decide +kernel), disposeDescendants_of_childless hpage rfl]
  rfl

theorem scope?_innerBound_outer : (innerBound.child rootScopeId outer.scopeId).scope? outer.scopeId =
    some { parent := some rootScopeId, birth := 2 } := by
  rw [innerBound_eq]
  rfl

theorem innerBound_emptied :
    (innerBound.child rootScopeId outer.scopeId).disposeDescendants outer.scopeId = outerEmptied :=
  disposeDescendants_of_childless scope?_innerBound_outer rfl

/-- The view takes away what has the id of its fragment, and makes a scope of its own with that id. -/
theorem opened_innerBound : outer.opened "```ldsh\n```" innerBound =
    (outerEmptied.dispose inner.scopeId).child outer.scopeId inner.scopeId := by
  have hgo : (innerBound.child rootScopeId outer.scopeId).letsGo { id := outer.scopeId } = true := by
    unfold letsGo
    rw [scope?_innerBound_outer]
    rfl
  obtain ⟨f, hf⟩ : ∃ f, Document.scan "```ldsh\n```" none = [f] := List.length_eq_one_iff.1 (by decide +kernel)
  rw [opened_eq hgo, hf, innerBound_emptied]
  rfl

/-- A reading view of one document takes the page of the other one away from the root, and what was bound
there is gone. -/
theorem page_taken :
    outer ≠ inner ∧
      Shared toString Preview.letterEvaluator (fun d => d = outer ∨ d = inner) innerBound ∧
      outer.Passes toString Preview.letterEvaluator innerBound (outer.opened "```ldsh\n```" innerBound) ∧
      inner.Owns inner.scopeId ∧
      innerBound.parent? inner.scopeId = some rootScopeId ∧
      innerBound.bindings inner.scopeId = [("x", "1")] ∧
      (outer.opened "```ldsh\n```" innerBound).parent? inner.scopeId = some outer.scopeId ∧
      (outer.opened "```ldsh\n```" innerBound).bindings inner.scopeId = [] := by
  have hopened : Shared toString Preview.letterEvaluator (fun d => d = outer ∨ d = inner) (inner.opened "" new) :=
    .step (Or.inr rfl) (inner.step_opened _ _ "" new) .new
  have hbound : Shared toString Preview.letterEvaluator (fun d => d = outer ∨ d = inner) innerBound :=
    .operate (.setMany inner.scopeId [("x", "1")]) trivial hopened
  have hpass := outer.step_opened toString Preview.letterEvaluator "```ldsh\n```" innerBound
  have hlinked : outerEmptied.Linked := by
    have hchild := hbound.apart.linked.apply (.child rootScopeId outer.scopeId)
    have hcleared := hchild.apply (.disposeDescendants outer.scopeId)
    rwa [← innerBound_emptied]
  have hleaf : outerEmptied.isLive outer.scopeId = true ∧ outerEmptied.children inner.scopeId = [] := by
    unfold outerEmptied
    rw [innerBound_eq]
    decide +kernel
  have hapart : ¬ outerEmptied.Below inner.scopeId outer.scopeId := by
    intro hbelow
    rcases ReflTransGen.cases_head hbelow with heq | ⟨c, hc, -⟩
    · exact absurd heq (by decide)
    · rw [hleaf.2] at hc
      contradiction
  have hleft : (outerEmptied.dispose inner.scopeId).isLive outer.scopeId = true :=
    hlinked.isLive_dispose.2 ⟨hleaf.1, hapart⟩
  have hmade := scope?_child_of_dead (by decide) hleft (scope?_dispose_self outerEmptied inner.scopeId)
  refine ⟨by decide, hbound, .single hpass, DocumentKey.Owns.page inner, ?_, ?_, ?_, ?_⟩
  · rw [innerBound_eq]
    decide +kernel
  · rw [innerBound_eq]
    decide +kernel
  · rw [opened_innerBound, parent?_eq_of_scope? hmade]
  · rw [opened_innerBound]
    unfold bindings
    rw [hmade]
    rfl

end LiveNotes
