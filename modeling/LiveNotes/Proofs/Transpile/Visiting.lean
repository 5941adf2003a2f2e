import LiveNotes.Proofs.Script.Scoping
import LiveNotes.Transpile.Lookup
import Mathlib.Data.List.Basic

/-! The edits for a tree, by the parts of the tree that they are for and what is known there. -/

namespace LiveNotes.Transpile

open Script

variable {s : Surroundings} {e : Edit} {text : List Char} {t u k : Tree} {label : Label} {span : Span} {ks : List Tree}
  {i : Nat} {path front back : List Nat} {x : String}

/-! ### One step -/

/-- The name that the value of a property with the given parts reads. -/
def valueName? : List Tree → Option String
  | [_, .node (.read x) _ _] => some x
  | _ => none

/-- Whether a name that is read is the only part. -/
def isNameAlone : List Tree → Bool
  | [.node (.read _) _ _] => true
  | _ => false

namespace Surroundings

/-- What is known in the `i`-th part of a node: names bound there, and the keys of the innermost list of statements.
An arrow function without braces has no such list. -/
def part (s : Surroundings) (label : Label) (ks : List Tree) (i : Nat) : Surroundings :=
  match label, i with
  | .switchStatement, 0 | .classExpr, 3 | .classDecl, 3 => s
  | .arrow _, 1 => { s.inside label ks with aliases := [] }
  | _, _ => s.inside label ks

/-- Whether nothing is looked up in the `i`-th part of a conditional. -/
def sparesBranch (s : Surroundings) (ks : List Tree) (i : Nat) : Bool :=
  match ks with
  | [test, yes, no] => s.isLookup test.span || (i == 1 && isGuarded (guardedName test) yes) ||
      (i == 2 && isGuarded (guardedName test) no)
  | _ => false

/-- Whether nothing is looked up in the `i`-th part of a node. -/
def spares (s : Surroundings) (label : Label) (ks : List Tree) (i : Nat) : Bool :=
  match label with
  | .importDecl _ _ _ _ => true
  | .property _ _ true => (valueName? ks).isSome
  | .unary .typeof => isNameAlone ks
  | .conditional => s.sparesBranch ks i
  | _ => false

/-- The edits for a node itself. -/
def own (s : Surroundings) : Tree → List Edit
  | .node label span ks => match label with
    | .read x => ((s.lookup? x).map (Edit.mk span.start span.stop)).toList
    | .importDecl _ source _ _ =>
      if isRegistered s.options.globals s.options.registerImports source then
        [⟨span.start, span.stop, registryRead s.options.globals.moduleRegistry source ks⟩]
      else []
    | .property _ _ true => match valueName? ks with
      | some x => ((s.lookup? x).map fun text => Edit.mk span.start span.stop (x ++ ": " ++ text)).toList
      | none => []
    | _ => []

end Surroundings

theorem exists_getElem?_nil {holds : Nat → Tree → Prop} :
    (∃ (i : Nat) (t : Tree), ([] : List Tree)[i]? = some t ∧ holds i t) ↔ False := by simp

theorem exists_getElem?_cons {holds : Nat → Tree → Prop} {t : Tree} {ts : List Tree} :
    (∃ (i : Nat) (u : Tree), (t :: ts)[i]? = some u ∧ holds i u) ↔
      holds 0 t ∨ ∃ (i : Nat) (u : Tree), ts[i]? = some u ∧ holds (i + 1) u := by
  constructor
  · rintro ⟨i, u, hu, h⟩
    cases i with
    | zero =>
      obtain rfl := by simpa using hu
      exact .inl h
    | succ i => exact .inr ⟨i, u, by simpa using hu, h⟩
  · rintro (h | ⟨i, u, hu, h⟩)
    · exact ⟨0, t, rfl, h⟩
    · exact ⟨i + 1, u, by simpa using hu, h⟩

theorem mem_lookupsAll {ts : List Tree} :
    e ∈ lookupsAll s ts ↔ ∃ (i : Nat) (t : Tree), ts[i]? = some t ∧ e ∈ lookups s t := by
  induction ts with
  | nil => simp [lookupsAll]
  | cons t ts ih => rw [lookupsAll, List.mem_append, exists_getElem?_cons, ih]

theorem exists_four (h : ks.length = 4) : ∃ a b c d, ks = [a, b, c, d] := by
  match ks, h with
  | [a, b, c, d], _ => exact ⟨a, b, c, d, rfl⟩

@[simp] theorem bind_nil (s : Surroundings) : s.bind [] = s := rfl

/-- The edits for a node are its own and those for the parts that are not spared. -/
theorem mem_lookups_node (h : Regular text (.node label span ks)) :
    e ∈ lookups s (.node label span ks) ↔ e ∈ s.own (.node label span ks) ∨
      ∃ (i : Nat) (k : Tree), ks[i]? = some k ∧ s.spares label ks i = false ∧ e ∈ lookups (s.part label ks i) k := by
  have hfits := h.fits
  have hinside (hown : s.own (.node label span ks) = []) (hpart : ∀ i, s.part label ks i = s.inside label ks)
      (hspares : ∀ i, s.spares label ks i = false) : e ∈ lookupsAll (s.inside label ks) ks ↔
        e ∈ s.own (.node label span ks) ∨
          ∃ (i : Nat) (k : Tree), ks[i]? = some k ∧ s.spares label ks i = false ∧ e ∈ lookups (s.part label ks i) k := by
    simp [hown, hpart, hspares, mem_lookupsAll]
  rw [lookups.eq_def]
  dsimp only
  split
  · obtain ⟨_, rfl⟩ := h.spells rfl
    simp [Surroundings.own]
  · simp [Surroundings.own, Surroundings.spares]
  · split
    next => simp [Surroundings.own, Surroundings.spares, valueName?]
    next hother =>
      have hnone : valueName? ks = none := by
        unfold valueName?
        split
        · exact absurd rfl (hother _ _ _ _)
        · rfl
      exact hinside (by simp [Surroundings.own, hnone]) (fun _ => rfl) (by simp [Surroundings.spares, hnone])
  · split
    next => simp [Surroundings.own, Surroundings.spares, isNameAlone]
    next hother =>
      have hnone : isNameAlone ks = false := by
        unfold isNameAlone
        split
        · exact absurd rfl (hother _ _ _)
        · rfl
      exact hinside rfl (fun _ => rfl) fun _ => hnone
  · obtain ⟨test, yes, no, rfl⟩ := List.length_eq_three.1 hfits
    have hpart (i : Nat) : s.part .conditional [test, yes, no] i = s := rfl
    simp only [Surroundings.own, Surroundings.spares, hpart, exists_getElem?_cons, exists_getElem?_nil,
      Surroundings.sparesBranch]
    split
    next hlookup => simp [hlookup]
    next hlookup => simp [hlookup]
  · cases ks with
    | nil => exact absurd rfl hfits
    | cons value cases =>
      simp [Surroundings.own, Surroundings.spares, exists_getElem?_cons, mem_lookupsAll, Surroundings.part]
  · obtain ⟨name, super, body, ds, rfl⟩ := exists_four hfits
    simp [Surroundings.own, Surroundings.spares, exists_getElem?_cons, Surroundings.part]
  · obtain ⟨name, super, body, ds, rfl⟩ := exists_four hfits
    simp [Surroundings.own, Surroundings.spares, exists_getElem?_cons, Surroundings.part]
  · obtain ⟨params, body, rfl⟩ := List.length_eq_two.1 hfits
    simp [Surroundings.own, Surroundings.spares, exists_getElem?_cons, Surroundings.part]
  · next hread himport hproperty htypeof hconditional hswitch hexpr hdecl harrow =>
    refine hinside ?_ (fun i => ?_) fun i => ?_
    · unfold Surroundings.own
      dsimp only
      split
      · exact absurd rfl (hread _)
      · exact absurd rfl (himport _ _ _ _)
      · exact absurd rfl (hproperty _ _)
      · rfl
    · unfold Surroundings.part
      split
      · exact absurd rfl hswitch
      · exact absurd rfl hexpr
      · exact absurd rfl hdecl
      · exact absurd rfl (harrow _)
      · rfl
    · unfold Surroundings.spares
      split
      · exact absurd rfl (himport _ _ _ _)
      · exact absurd rfl (hproperty _ _)
      · exact absurd rfl htypeof
      · exact absurd rfl hconditional
      · rfl

/-! ### Whole paths -/

namespace Surroundings

/-- What is known in the part to which a path leads. -/
def along (s : Surroundings) : Tree → List Nat → Surroundings
  | _, [] => s
  | t, i :: path => match t.kids[i]? with
    | some k => (s.part t.label t.kids i).along k path
    | none => s

/-- No part on the path is spared. -/
def Visits (s : Surroundings) (t : Tree) (path : List Nat) : Prop :=
  ∀ front i back label span ks, path = front ++ i :: back → t.at? front = some (.node label span ks) →
    s.spares label ks i = false

theorem along_cons (hk : ks[i]? = some k) :
    s.along (.node label span ks) (i :: path) = (s.part label ks i).along k path := by
  rw [along, Tree.kids_node, hk]
  rfl

theorem part_constant (s : Surroundings) (label : Label) (ks : List Tree) (i : Nat) :
    (s.part label ks i).options = s.options ∧ (s.part label ks i).source = s.source ∧
      (s.part label ks i).reexported = s.reexported := by
  have hinside : (s.inside label ks).options = s.options ∧ (s.inside label ks).source = s.source ∧
      (s.inside label ks).reexported = s.reexported := by
    unfold inside
    split <;> exact ⟨rfl, rfl, rfl⟩
  unfold part
  split
  iterate 3 exact ⟨rfl, rfl, rfl⟩
  · exact hinside
  · exact hinside

/-- What is spared does not depend on names. -/
theorem spares_congr {s' : Surroundings} (hoptions : s'.options = s.options) (hsource : s'.source = s.source) :
    s'.spares = s.spares := by
  funext label ks i
  unfold spares sparesBranch isLookup
  rw [hoptions, hsource]

@[simp] theorem spares_part (s : Surroundings) (label : Label) (ks : List Tree) (i : Nat) :
    (s.part label ks i).spares = s.spares :=
  have h := s.part_constant label ks i
  spares_congr h.1 h.2.1

theorem visits_nil (s : Surroundings) (t : Tree) : s.Visits t [] := fun _ _ _ _ _ _ h => by simp at h

theorem visits_cons (hk : ks[i]? = some k) : s.Visits (.node label span ks) (i :: path) ↔
    s.spares label ks i = false ∧ (s.part label ks i).Visits k path := by
  constructor
  · intro h
    refine ⟨h [] i path _ _ _ rfl rfl, fun front j back l s' ks' hpath hat => ?_⟩
    rw [spares_part]
    exact h (i :: front) j back l s' ks' (by rw [hpath, List.cons_append]) (Tree.at?_node.2 ⟨k, hk, hat⟩)
  · rintro ⟨hhead, htail⟩ front j back l s' ks' hpath hat
    cases front with
    | nil =>
      obtain ⟨rfl, rfl⟩ := by simpa using hpath
      obtain ⟨rfl, rfl, rfl⟩ := by simpa using hat
      exact hhead
    | cons m front =>
      obtain ⟨rfl, rfl⟩ := by simpa using hpath
      obtain ⟨k', hk', hat⟩ := Tree.at?_node.1 hat
      obtain rfl : k = k' := Option.some.inj (hk.symm.trans hk')
      rw [← spares_part s label ks i]
      exact htail front j back l s' ks' rfl hat

end Surroundings

/-- The edits for a tree are those of its parts, but for what is spared. -/
theorem mem_lookups_iff (h : Regular text t) : e ∈ lookups s t ↔
    ∃ path u, t.at? path = some u ∧ s.Visits t path ∧ e ∈ (s.along t path).own u := by
  constructor
  · intro he
    induction t using Tree.induction generalizing s with
    | node label span ks ih =>
      rcases (mem_lookups_node h).1 he with he | ⟨i, k, hk, hspares, he⟩
      · exact ⟨[], _, rfl, s.visits_nil _, he⟩
      · have hmem := List.mem_of_getElem? hk
        obtain ⟨path, u, hu, hvisits, he⟩ := ih k hmem (h.kids k hmem) he
        refine ⟨i :: path, u, Tree.at?_node.2 ⟨k, hk, hu⟩, (Surroundings.visits_cons hk).2 ⟨hspares, hvisits⟩, ?_⟩
        rwa [Surroundings.along_cons hk]
  · rintro ⟨path, u, hu, hvisits, he⟩
    induction path generalizing s t with
    | nil =>
      obtain rfl := by simpa using hu
      obtain ⟨label, span, ks⟩ := t
      exact (mem_lookups_node h).2 (.inl he)
    | cons i path ih =>
      obtain ⟨label, span, ks⟩ := t
      obtain ⟨k, hk, hu⟩ := Tree.at?_node.1 hu
      rw [Surroundings.along_cons hk] at he
      obtain ⟨hspares, hvisits⟩ := (Surroundings.visits_cons hk).1 hvisits
      exact (mem_lookups_node h).2 (.inr ⟨i, k, hk, hspares, ih (h.kids k (List.mem_of_getElem? hk)) hu hvisits he⟩)

/-! ### What is known along a path -/

theorem boundAt_cons (hk : ks[i]? = some k) : BoundAt (.node label span ks) (i :: path) x ↔
    (label.covers i = true ∧ BindsInside x label ks) ∨ BoundAt k path x := by
  constructor
  · rintro ⟨front, j, back, l, s', ks', hpath, hat, hcovers, hbinds⟩
    cases front with
    | nil =>
      obtain ⟨rfl, rfl⟩ := by simpa using hpath
      obtain ⟨rfl, rfl, rfl⟩ := by simpa using hat
      exact .inl ⟨hcovers, hbinds⟩
    | cons m front =>
      obtain ⟨rfl, rfl⟩ := by simpa using hpath
      obtain ⟨k', hk', hat⟩ := Tree.at?_node.1 hat
      obtain rfl : k = k' := Option.some.inj (hk.symm.trans hk')
      exact .inr ⟨front, j, back, l, s', ks', rfl, hat, hcovers, hbinds⟩
  · rintro (⟨hcovers, hbinds⟩ | ⟨front, j, back, l, s', ks', rfl, hat, hcovers, hbinds⟩)
    · exact ⟨[], i, path, label, span, ks, rfl, rfl, hcovers, hbinds⟩
    · exact ⟨i :: front, j, back, l, s', ks', rfl, Tree.at?_node.2 ⟨k, hk, hat⟩, hcovers, hbinds⟩

/-- What is bound in a part of a node is bound around the node or by it. -/
theorem boundAt_append_singleton (hat : t.at? path = some (.node label span ks)) :
    BoundAt t (path ++ [i]) x ↔ BoundAt t path x ∨ (label.covers i = true ∧ BindsInside x label ks) := by
  constructor
  · rintro ⟨front, j, back, l, s', ks', hpath, hat', hcovers, hbinds⟩
    rcases List.eq_nil_or_concat' back with rfl | ⟨back, j', rfl⟩
    · obtain ⟨rfl, rfl⟩ := by simpa using hpath
      obtain ⟨rfl, rfl, rfl⟩ := by simpa using hat.symm.trans hat'
      exact .inr ⟨hcovers, hbinds⟩
    · rw [← List.cons_append, ← List.append_assoc] at hpath
      obtain ⟨rfl, _⟩ := List.append_inj' hpath rfl
      exact .inl ⟨front, j, back, l, s', ks', rfl, hat', hcovers, hbinds⟩
  · rintro (⟨front, j, back, l, s', ks', rfl, hat', hcovers, hbinds⟩ | ⟨hcovers, hbinds⟩)
    · exact ⟨front, j, back ++ [i], l, s', ks', by simp, hat', hcovers, hbinds⟩
    · exact ⟨path, i, [], label, span, ks, rfl, hat, hcovers, hbinds⟩

theorem not_boundAt_nil : ¬BoundAt t [] x := by
  rintro ⟨front, i, back, _, _, _, hpath, _⟩
  simp at hpath

theorem mem_bound_part (s : Surroundings) (label : Label) (ks : List Tree) (i : Nat) :
    x ∈ (s.part label ks i).bound ↔ x ∈ s.bound ∨ (label.covers i = true ∧ BindsInside x label ks) := by
  have hinside : x ∈ (s.inside label ks).bound ↔ x ∈ s.bound ∨ BindsInside x label ks := by
    have hbound : (s.inside label ks).bound = scopeNames label ks ++ s.bound := by
      unfold Surroundings.inside
      split <;> rfl
    rw [hbound, List.mem_append, mem_scopeNames, or_comm]
  unfold Surroundings.part Label.covers
  split
  iterate 3 simp
  · simpa using hinside
  · next hswitch hexpr hdecl _ =>
    rw [hinside]
    split <;> simp_all

/-- The names bound in a part are those that the nodes around it bind. -/
theorem mem_bound_along (hu : t.at? path = some u) :
    x ∈ (s.along t path).bound ↔ x ∈ s.bound ∨ BoundAt t path x := by
  induction path generalizing s t with
  | nil => simp [Surroundings.along, not_boundAt_nil]
  | cons i path ih =>
    obtain ⟨label, span, ks⟩ := t
    obtain ⟨k, hk, hu⟩ := Tree.at?_node.1 hu
    rw [Surroundings.along_cons hk, ih hu, mem_bound_part, boundAt_cons hk, or_assoc]

/-- The statement takes apart the property with the key under another name. -/
inductive Renames (key : String) : Tree → Prop
  | pattern {kind : VariableKind} {span s s₁ s₂ s₃ : Span} {ds ps vs ks : List Tree} {shorthand : Bool} {k : Tree}
      {x : String}
      (hd : .node .declarator s (.node .objectPattern s₁ ps :: vs) ∈ ds)
      (hp : .node (.bindingProperty false shorthand) s₂ [k, .node (.binding x) s₃ ks] ∈ ps)
      (hkey : k.label = .name key ∨ ∃ surrogates, k.label = .string key surrogates) (hne : key ≠ x) :
      Renames key (.node (.variableList kind) span ds)

theorem mem_aliasKeys {key : String} {ts : List Tree} : key ∈ aliasKeys ts ↔ ∃ t ∈ ts, Renames key t := by
  constructor
  · intro h
    obtain ⟨t, ht, h⟩ := List.mem_flatMap.1 h
    refine ⟨t, ht, ?_⟩
    split at h
    · obtain ⟨d, hd, h⟩ := List.mem_flatMap.1 h
      split at h
      · obtain ⟨p, hp, h⟩ := List.mem_filterMap.1 h
        split at h
        · split at h
          · next hlabel =>
            obtain ⟨hne, rfl⟩ := by simpa using h
            exact .pattern hd hp (.inl hlabel) hne
          · next hlabel =>
            obtain ⟨hne, rfl⟩ := by simpa using h
            exact .pattern hd hp (.inr ⟨_, hlabel⟩) hne
          · simp at h
        · simp at h
      · simp at h
    · simp at h
  · rintro ⟨t, ht, h⟩
    refine List.mem_flatMap.2 ⟨t, ht, ?_⟩
    cases h with
    | pattern hd hp hkey hne =>
      refine List.mem_flatMap.2 ⟨_, hd, List.mem_filterMap.2 ⟨_, hp, ?_⟩⟩
      rcases hkey with hlabel | ⟨_, hlabel⟩
      · simp [hlabel, hne]
      · simp [hlabel, hne]

/-- The statements of the innermost list in whose `i`-th part a node stands, if those around the node are known. -/
def listInside (around : List Tree) (label : Label) (ks : List Tree) (i : Nat) : List Tree :=
  match label, i with
  | .program, _ | .functionBody, _ | .block, _ => ks
  | .arrow _, 1 => []
  | _, _ => around

/-- The statements of the innermost list around the part to which a path leads: those of the program, of a function
or of a block. An arrow function without braces has none. -/
def listAround (around : List Tree) : Tree → List Nat → List Tree
  | _, [] => around
  | t, i :: path => match t.kids[i]? with
    | some k => listAround (listInside around t.label t.kids i) k path
    | none => around

theorem listAround_cons {around : List Tree} (hk : ks[i]? = some k) :
    listAround around (.node label span ks) (i :: path) = listAround (listInside around label ks i) k path := by
  rw [listAround, Tree.kids_node, hk]
  rfl

theorem listAround_append_singleton {around : List Tree} (hat : t.at? path = some (.node label span ks))
    (hk : ks[i]? = some k) :
    listAround around t (path ++ [i]) = listInside (listAround around t path) label ks i := by
  induction path generalizing t around with
  | nil =>
    obtain rfl := by simpa using hat
    exact listAround_cons hk
  | cons j path ih =>
    obtain ⟨l, s', ks'⟩ := t
    obtain ⟨k', hk', hat⟩ := Tree.at?_node.1 hat
    rw [List.cons_append, listAround_cons hk', listAround_cons hk', ih hat]

theorem aliases_part {around : List Tree} (h : s.aliases = aliasKeys around) :
    (s.part label ks i).aliases = aliasKeys (listInside around label ks i) := by
  unfold Surroundings.part
  split
  iterate 3 exact h
  · rfl
  · next _ _ _ harrow =>
    unfold listInside
    split
    iterate 3 rfl
    · exact absurd rfl (harrow _ rfl)
    · next hprogram hbody hblock _ =>
      unfold Surroundings.inside
      split
      · exact absurd rfl hprogram
      · exact absurd rfl hbody
      · exact absurd rfl hblock
      · exact h

theorem aliases_along {around : List Tree} (h : s.aliases = aliasKeys around) (hu : t.at? path = some u) :
    (s.along t path).aliases = aliasKeys (listAround around t path) := by
  induction path generalizing s t around with
  | nil => exact h
  | cons i path ih =>
    obtain ⟨label, span, ks⟩ := t
    obtain ⟨k, hk, hu⟩ := Tree.at?_node.1 hu
    rw [Surroundings.along_cons hk, listAround_cons hk]
    exact ih (aliases_part h) hu

theorem along_constant (hu : t.at? path = some u) : (s.along t path).options = s.options ∧
    (s.along t path).source = s.source ∧ (s.along t path).reexported = s.reexported := by
  induction path generalizing s t with
  | nil => exact ⟨rfl, rfl, rfl⟩
  | cons i path ih =>
    obtain ⟨label, span, ks⟩ := t
    obtain ⟨k, hk, hu⟩ := Tree.at?_node.1 hu
    rw [Surroundings.along_cons hk]
    obtain ⟨hoptions, hsource, hreexported⟩ := s.part_constant label ks i
    obtain ⟨hoptions', hsource', hreexported'⟩ := ih (s := s.part label ks i) hu
    exact ⟨hoptions'.trans hoptions, hsource'.trans hsource, hreexported'.trans hreexported⟩

end LiveNotes.Transpile
