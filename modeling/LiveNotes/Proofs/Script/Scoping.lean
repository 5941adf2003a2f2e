import LiveNotes.Proofs.Script.Part
import LiveNotes.Script.Scopes

/-! Where names are bound. A declaration binds its names for the parts of the node around it: `var` for those of
the function or module, anything else for those of its list of statements. -/

namespace LiveNotes.Script

variable {x : String}

/-- The pattern binds the name. -/
inductive Binds (x : String) : Tree → Prop
  | name {s : Span} {ks : List Tree} : Binds x (.node (.binding x) s ks)
  | property {computed shorthand : Bool} {s : Span} {k p : Tree} (h : Binds x p) :
      Binds x (.node (.bindingProperty computed shorthand) s [k, p])
  | withDefault {s : Span} {p d : Tree} (h : Binds x p) : Binds x (.node .withDefault s [p, d])
  | decorated {s : Span} {d p : Tree} (h : Binds x p) : Binds x (.node .decoratedParam s [d, p])
  | part {label : Label} {s : Span} {ks : List Tree} {p : Tree}
      (hlabel : label ∈ [.objectPattern, .arrayPattern, .rest, .fieldParam]) (hp : p ∈ ks) (h : Binds x p) :
      Binds x (.node label s ks)

/-- The declaration binds the name in the scope around it. -/
inductive Declares (x : String) : Tree → Prop
  | declarator {kind : VariableKind} {s s' : Span} {ds : List Tree} {p v : Tree} (hd : .node .declarator s' [p, v] ∈ ds)
      (h : Binds x p) : Declares x (.node (.variableList kind) s ds)
  | function {f : FunctionForm} {s : Span} {name : Tree} {ks : List Tree} (h : Binds x name) :
      Declares x (.node (.functionDecl f) s (name :: ks))
  | class_ {s : Span} {name : Tree} {ks : List Tree} (h : Binds x name) : Declares x (.node .classDecl s (name :: ks))
  | enum {s : Span} {name : Tree} {ks : List Tree} (h : Binds x name) : Declares x (.node .enumDecl s (name :: ks))

/-- Whether a `var` in a node with the label stays in it. -/
def Label.keepsVars : Label → Bool
  | .function _ | .functionDecl _ | .arrow _ | .classExpr | .classDecl | .staticBlock | .namespaceDecl => true
  | _ => false

/-- A `var` in the tree binds the name in the function around the tree. -/
inductive Hoists (x : String) : Tree → Prop
  | var {s : Span} {ds : List Tree} (h : Declares x (.node (.variableList .var) s ds)) :
      Hoists x (.node (.variableList .var) s ds)
  | inside {label : Label} {s : Span} {ks : List Tree} {k : Tree} (hkeeps : label.keepsVars = false)
      (hlabel : label ≠ .variableList .var) (hk : k ∈ ks) (h : Hoists x k) : Hoists x (.node label s ks)

/-- A function that stands alone behind a label or in a branch of the statement binds the name around it. -/
inductive DeclaresAlone (x : String) : Tree → Prop
  | function {f : FunctionForm} {s : Span} {ks : List Tree} (h : Declares x (.node (.functionDecl f) s ks)) :
      DeclaresAlone x (.node (.functionDecl f) s ks)
  | labeled {name : String} {s : Span} {ks : List Tree} {k : Tree} (hk : k ∈ ks) (h : DeclaresAlone x k) :
      DeclaresAlone x (.node (.labeled name) s ks)
  | branch {label : Label} {s : Span} {ks : List Tree} {k : Tree} (hlabel : label ∈ [.ifElse, .whileLoop, .doWhile])
      (hk : k ∈ ks) (h : DeclaresAlone x k) : DeclaresAlone x (.node label s ks)

/-- The statement binds the name in its list of statements. -/
inductive DeclaresHere (x : String) : Tree → Prop
  | import_ {phase : ImportPhase} {source : String} {bare typeOnly : Bool} {s : Span} {ks : List Tree} {k : Tree}
      (hk : k ∈ ks) (h : importedName k = some x) : DeclaresHere x (.node (.importDecl phase source bare typeOnly) s ks)
  | exported {s : Span} {d : Tree} (h : Declares x d) : DeclaresHere x (.node .exportDecl s [d])
  | default {s : Span} {d : Tree} (h : Declares x d) : DeclaresHere x (.node .exportDefault s [d])
  | plain {t : Tree} (h : Declares x t) : DeclaresHere x t
  | alone {t : Tree} (h : DeclaresAlone x t) : DeclaresHere x t

/-- A node with the label and the parts binds the name for these parts. -/
inductive BindsInside (x : String) : Label → List Tree → Prop
  | hoisted {label : Label} {ks : List Tree} {k : Tree} (hlabel : label ∈ [.program, .functionBody, .staticBlock])
      (hk : k ∈ ks) (h : Hoists x k) : BindsInside x label ks
  | statement {label : Label} {ks : List Tree} {k : Tree}
      (hlabel : label ∈ [.program, .functionBody, .staticBlock, .block]) (hk : k ∈ ks) (h : DeclaresHere x k) :
      BindsInside x label ks
  | functionName {f : FunctionForm} {name : Tree} {ks : List Tree} (h : Binds x name) :
      BindsInside x (.function f) (name :: ks)
  | functionParam {f : FunctionForm} {name params p : Tree} {ks : List Tree} (hp : p ∈ params.kids) (h : Binds x p) :
      BindsInside x (.function f) (name :: params :: ks)
  | declaredParam {f : FunctionForm} {name params p : Tree} {ks : List Tree} (hp : p ∈ params.kids) (h : Binds x p) :
      BindsInside x (.functionDecl f) (name :: params :: ks)
  | arrowParam {f : ArrowForm} {params p : Tree} {ks : List Tree} (hp : p ∈ params.kids) (h : Binds x p) :
      BindsInside x (.arrow f) (params :: ks)
  | name {label : Label} {name : Tree} {ks : List Tree} (hlabel : label ∈ [.classExpr, .classDecl, .catchClause])
      (h : Binds x name) : BindsInside x label (name :: ks)
  | loop {label : Label} {head : Tree} {ks : List Tree}
      (hlabel : label ∈ [.forLoop, .forIn, .forOf false, .forOf true, .withStatement]) (h : DeclaresHere x head) :
      BindsInside x label (head :: ks)
  | loopAlone {label : Label} {head k : Tree} {ks : List Tree}
      (hlabel : label ∈ [.forLoop, .forIn, .forOf false, .forOf true, .withStatement]) (hk : k ∈ ks)
      (h : DeclaresAlone x k) : BindsInside x label (head :: ks)
  | case {value c k : Tree} {cases : List Tree} (hc : c ∈ cases) (hk : k ∈ c.kids.drop 1) (h : DeclaresHere x k) :
      BindsInside x .switchStatement (value :: cases)

/-- Whether what a node with the label binds holds in its `i`-th part: not in the decorators of a class, nor in the
value that a `switch` compares. -/
def Label.covers (label : Label) (i : Nat) : Bool :=
  match label with
  | .classExpr | .classDecl => i != 3
  | .switchStatement => i != 0
  | _ => true

/-! ### Names of patterns and declarations -/

theorem mem_boundNamesAll {ts : List Tree} : x ∈ boundNamesAll ts ↔ ∃ t ∈ ts, x ∈ boundNames t := by
  induction ts with
  | nil => simp [boundNamesAll]
  | cons t ts ih => simp [boundNamesAll, ih]

theorem Binds.mem {t : Tree} (h : Binds x t) : x ∈ boundNames t := by
  induction h with
  | name => simp [boundNames]
  | property _ ih => simpa [boundNames] using ih
  | withDefault _ ih => simpa [boundNames] using ih
  | decorated _ ih => simpa [boundNames] using ih
  | part hlabel hp _ ih =>
    simp only [List.mem_cons, List.not_mem_nil, or_false] at hlabel
    rcases hlabel with rfl | rfl | rfl | rfl
    all_goals
      rw [boundNames, mem_boundNamesAll]
      exact ⟨_, hp, ih⟩

theorem binds_of_mem {t : Tree} (h : x ∈ boundNames t) : Binds x t := by
  induction t using Tree.induction with
  | node label s ks ih =>
    rw [boundNames.eq_def] at h
    split at h
    next heq =>
      obtain ⟨rfl, rfl, rfl⟩ := by simpa using heq
      split at h
      · obtain rfl := by simpa using h
        exact .name
      · split at h
        · exact .property (ih _ (by simp) h)
        · simp at h
      · split at h
        · exact .withDefault (ih _ (by simp) h)
        · simp at h
      · split at h
        · exact .decorated (ih _ (by simp) h)
        · simp at h
      iterate 4
        obtain ⟨p, hp, h⟩ := mem_boundNamesAll.1 h
        exact .part (by simp) hp (ih p hp h)
      · simp at h

theorem mem_boundNames {t : Tree} : x ∈ boundNames t ↔ Binds x t := ⟨binds_of_mem, Binds.mem⟩

theorem mem_declaredNames {t : Tree} : x ∈ declaredNames t ↔ Declares x t := by
  constructor
  · intro h
    unfold declaredNames at h
    split at h
    · obtain ⟨d, hd, h⟩ := List.mem_flatMap.1 h
      split at h
      · exact .declarator hd (mem_boundNames.1 h)
      · simp at h
    · exact .function (mem_boundNames.1 h)
    · exact .class_ (mem_boundNames.1 h)
    · exact .enum (mem_boundNames.1 h)
    · simp at h
  · rintro (⟨hd, h⟩ | h | h | h)
    · rw [declaredNames, List.mem_flatMap]
      exact ⟨_, hd, mem_boundNames.2 h⟩
    · exact mem_boundNames.2 h
    · exact mem_boundNames.2 h
    · exact mem_boundNames.2 h

/-! ### Names of statements -/

theorem mem_varNamesAll {ts : List Tree} : x ∈ varNamesAll ts ↔ ∃ t ∈ ts, x ∈ varNames t := by
  induction ts with
  | nil => simp [varNamesAll]
  | cons t ts ih => simp [varNamesAll, ih]

theorem mem_varNames {t : Tree} : x ∈ varNames t ↔ Hoists x t := by
  constructor
  · intro h
    induction t using Tree.induction with
    | node label s ks ih =>
      rw [varNames.eq_def] at h
      split at h
      next heq =>
        obtain ⟨rfl, rfl, rfl⟩ := by simpa using heq
        split at h
        · exact .var (mem_declaredNames.1 h)
        iterate 7 simp at h
        · next hvar h₁ h₂ h₃ h₄ h₅ h₆ h₇ =>
          obtain ⟨k, hk, h⟩ := mem_varNamesAll.1 h
          refine .inside ?_ hvar hk (ih k hk h)
          unfold Label.keepsVars
          split <;> simp_all
  · intro h
    induction h with
    | var h => exact mem_declaredNames.2 h
    | inside hkeeps hlabel hk _ ih =>
      rw [varNames.eq_def]
      dsimp only
      split
      · exact absurd rfl hlabel
      iterate 7 simp [Label.keepsVars] at hkeeps
      · exact mem_varNamesAll.2 ⟨_, hk, ih⟩

theorem mem_aloneNamesAll {ts : List Tree} : x ∈ aloneNamesAll ts ↔ ∃ t ∈ ts, x ∈ aloneNames t := by
  induction ts with
  | nil => simp [aloneNamesAll]
  | cons t ts ih => simp [aloneNamesAll, ih]

theorem mem_aloneNames {t : Tree} : x ∈ aloneNames t ↔ DeclaresAlone x t := by
  constructor
  · intro h
    induction t using Tree.induction with
    | node label s ks ih =>
      rw [aloneNames.eq_def] at h
      split at h
      next heq =>
        obtain ⟨rfl, rfl, rfl⟩ := by simpa using heq
        split at h
        · exact .function (mem_declaredNames.1 h)
        · obtain ⟨k, hk, h⟩ := mem_aloneNamesAll.1 h
          exact .labeled hk (ih k hk h)
        iterate 3
          obtain ⟨k, hk, h⟩ := mem_aloneNamesAll.1 h
          exact .branch (by simp) hk (ih k hk h)
        · simp at h
  · intro h
    induction h with
    | function h => exact mem_declaredNames.2 h
    | labeled hk _ ih => exact mem_aloneNamesAll.2 ⟨_, hk, ih⟩
    | branch hlabel hk _ ih =>
      simp only [List.mem_cons, List.not_mem_nil, or_false] at hlabel
      rcases hlabel with rfl | rfl | rfl
      all_goals exact mem_aloneNamesAll.2 ⟨_, hk, ih⟩

theorem mem_lexicalNames {t : Tree} : x ∈ lexicalNames t ↔ DeclaresHere x t := by
  constructor
  · intro h
    unfold lexicalNames at h
    split at h
    · obtain ⟨k, hk, h⟩ := List.mem_filterMap.1 h
      exact .import_ hk h
    · exact .exported (mem_declaredNames.1 h)
    · exact .default (mem_declaredNames.1 h)
    · exact .plain (mem_declaredNames.1 h)
    · rcases List.mem_append.1 h with h | h
      · exact .plain (mem_declaredNames.1 h)
      · exact .alone (mem_aloneNames.1 h)
  · intro h
    have hrest {t : Tree} (h : Declares x t ∨ DeclaresAlone x t) : x ∈ lexicalNames t := by
      unfold lexicalNames
      split
      · rcases h with h | h <;> cases h <;> simp_all
      · rcases h with h | h <;> cases h <;> simp_all
      · rcases h with h | h <;> cases h <;> simp_all
      · rcases h with h | h
        · exact mem_declaredNames.2 h
        · cases h with
          | function h => exact mem_declaredNames.2 h
          | branch hlabel => simp at hlabel
      · rcases h with h | h
        · exact List.mem_append_left _ (mem_declaredNames.2 h)
        · exact List.mem_append_right _ (mem_aloneNames.2 h)
    cases h with
    | import_ hk h => exact List.mem_filterMap.2 ⟨_, hk, h⟩
    | exported h => exact mem_declaredNames.2 h
    | default h => exact mem_declaredNames.2 h
    | plain h => exact hrest (.inl h)
    | alone h => exact hrest (.inr h)

theorem mem_blockNames {ts : List Tree} : x ∈ blockNames ts ↔ ∃ t ∈ ts, DeclaresHere x t := by
  simp [blockNames, mem_lexicalNames]

theorem mem_bodyNames {ts : List Tree} : x ∈ bodyNames ts ↔ (∃ t ∈ ts, Hoists x t) ∨ ∃ t ∈ ts, DeclaresHere x t := by
  simp [bodyNames, mem_varNamesAll, mem_varNames, mem_blockNames]

theorem mem_take_one {f : Tree → List String} {ks : List Tree} :
    x ∈ (ks.take 1).flatMap f ↔ ∃ k rest, ks = k :: rest ∧ x ∈ f k := by
  cases ks with
  | nil => simp
  | cons k rest =>
    constructor
    · intro h
      exact ⟨k, rest, rfl, by simpa using h⟩
    · rintro ⟨_, _, ⟨rfl, rfl⟩, h⟩
      simpa using h

theorem mem_paramNames {params : Tree} : x ∈ scopeNames.paramNames params ↔ ∃ p ∈ params.kids, Binds x p := by
  simp [scopeNames.paramNames, mem_boundNamesAll, mem_boundNames]

theorem BindsInside.mem {label : Label} {ks : List Tree} (h : BindsInside x label ks) : x ∈ scopeNames label ks := by
  cases h with
  | hoisted hlabel hk h =>
    simp only [List.mem_cons, List.not_mem_nil, or_false] at hlabel
    rcases hlabel with rfl | rfl | rfl
    all_goals exact mem_bodyNames.2 (.inl ⟨_, hk, h⟩)
  | statement hlabel hk h =>
    simp only [List.mem_cons, List.not_mem_nil, or_false] at hlabel
    rcases hlabel with rfl | rfl | rfl | rfl
    iterate 3 exact mem_bodyNames.2 (.inr ⟨_, hk, h⟩)
    exact mem_blockNames.2 ⟨_, hk, h⟩
  | functionName h => exact List.mem_append_left _ (by simpa using h.mem)
  | functionParam hp h => exact List.mem_append_right _ (by simpa using mem_paramNames.2 ⟨_, hp, h⟩)
  | declaredParam hp h =>
    have hmem := mem_paramNames.2 ⟨_, hp, h⟩
    simpa [scopeNames] using hmem
  | arrowParam hp h =>
    have hmem := mem_paramNames.2 ⟨_, hp, h⟩
    simpa [scopeNames] using hmem
  | name hlabel h =>
    simp only [List.mem_cons, List.not_mem_nil, or_false] at hlabel
    have hmem := h.mem
    rcases hlabel with rfl | rfl | rfl
    all_goals simpa [scopeNames] using hmem
  | loop hlabel h =>
    simp only [List.mem_cons, List.not_mem_nil, or_false] at hlabel
    have hmem := mem_lexicalNames.2 h
    rcases hlabel with rfl | rfl | rfl | rfl | rfl
    all_goals exact List.mem_append_left _ (by simpa using hmem)
  | loopAlone hlabel hk h =>
    simp only [List.mem_cons, List.not_mem_nil, or_false] at hlabel
    have hmem := mem_aloneNames.2 h
    rcases hlabel with rfl | rfl | rfl | rfl | rfl
    all_goals exact List.mem_append_right _ (List.mem_flatMap.2 ⟨_, hk, hmem⟩)
  | case hc hk h =>
    exact List.mem_flatMap.2 ⟨_, hc, mem_blockNames.2 ⟨_, hk, h⟩⟩

theorem bindsInside_of_mem {label : Label} {ks : List Tree} (h : x ∈ scopeNames label ks) : BindsInside x label ks := by
  have hbody {label : Label} (hlabel : label ∈ [.program, .functionBody, .staticBlock]) (h : x ∈ bodyNames ks) :
      BindsInside x label ks := by
    rcases mem_bodyNames.1 h with ⟨k, hk, h⟩ | ⟨k, hk, h⟩
    · exact .hoisted hlabel hk h
    · exact .statement (List.mem_append_left [Label.block] hlabel) hk h
  have hname {label : Label} (hlabel : label ∈ [.classExpr, .classDecl, .catchClause])
      (h : x ∈ (ks.take 1).flatMap boundNames) : BindsInside x label ks := by
    obtain ⟨name, rest, rfl, hx⟩ := mem_take_one.1 h
    exact .name hlabel (binds_of_mem hx)
  have hloop {label : Label} (hlabel : label ∈ [.forLoop, .forIn, .forOf false, .forOf true, .withStatement])
      (h : x ∈ (ks.take 1).flatMap lexicalNames ++ (ks.drop 1).flatMap aloneNames) : BindsInside x label ks := by
    cases ks with
    | nil => simp at h
    | cons head rest =>
      rcases List.mem_append.1 h with h | h
      · exact .loop hlabel (mem_lexicalNames.1 (by simpa using h))
      · obtain ⟨k, hk, h⟩ := List.mem_flatMap.1 h
        exact .loopAlone hlabel hk (mem_aloneNames.1 h)
  unfold scopeNames at h
  split at h
  · exact hbody (by simp) h
  · exact hbody (by simp) h
  · exact hbody (by simp) h
  · obtain ⟨k, hk, h⟩ := mem_blockNames.1 h
    exact .statement (by simp) hk h
  · rcases List.mem_append.1 h with h | h
    · obtain ⟨name, rest, rfl, hx⟩ := mem_take_one.1 h
      exact .functionName (binds_of_mem hx)
    · obtain ⟨params, rest, hks, hx⟩ := mem_take_one.1 h
      obtain ⟨p, hp, hx⟩ := mem_paramNames.1 hx
      cases ks with
      | nil => simp at hks
      | cons name ks =>
        obtain rfl : ks = params :: rest := by simpa using hks
        exact .functionParam hp hx
  · obtain ⟨params, rest, hks, hx⟩ := mem_take_one.1 h
    obtain ⟨p, hp, hx⟩ := mem_paramNames.1 hx
    cases ks with
    | nil => simp at hks
    | cons name ks =>
      obtain rfl : ks = params :: rest := by simpa using hks
      exact .declaredParam hp hx
  · obtain ⟨params, rest, rfl, hx⟩ := mem_take_one.1 h
    obtain ⟨p, hp, hx⟩ := mem_paramNames.1 hx
    exact .arrowParam hp hx
  · exact hname (by simp) h
  · exact hname (by simp) h
  · exact hname (by simp) h
  · exact hloop (by simp) h
  · exact hloop (by simp) h
  · next awaited => exact hloop (by cases awaited <;> simp) h
  · exact hloop (by simp) h
  · obtain ⟨c, hc, hx⟩ := List.mem_flatMap.1 h
    obtain ⟨k, hk, hx⟩ := mem_blockNames.1 hx
    cases ks with
    | nil => simp at hc
    | cons value cases => exact .case hc hk hx
  · simp at h

/-- The names that a node binds for its parts. -/
theorem mem_scopeNames {label : Label} {ks : List Tree} : x ∈ scopeNames label ks ↔ BindsInside x label ks :=
  ⟨bindsInside_of_mem, BindsInside.mem⟩

/-- A node around the part to which the path leads binds the name there. -/
def BoundAt (t : Tree) (path : List Nat) (x : String) : Prop :=
  ∃ front i back label span ks, path = front ++ i :: back ∧ t.at? front = some (.node label span ks) ∧
    label.covers i = true ∧ BindsInside x label ks

end LiveNotes.Script
