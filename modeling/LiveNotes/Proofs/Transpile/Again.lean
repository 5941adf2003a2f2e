import LiveNotes.Proofs.Script.Likeness
import LiveNotes.Proofs.Transpile.Frame

/-! Code in which free names are read from a scope and imports from the registry, as a script in its turn. Where the
lookups are read back as lookups and the registry as names of the page, nothing in it is looked up again. -/

namespace LiveNotes.Transpile

open Script Text

variable {options : Options} {text again : List Char} {s s' : Surroundings} {t t' k k' : Tree} {label : Label}
  {span span' : Span} {ks ks' ts ts' : List Tree} {i : Nat} {x : String} {e : Edit}

/-! ### Scripts with their lookups in place -/

/-- The second tree is the first with the lookups for its free names put in, as it is read from the text `again`. -/
inductive Expands (again : List Char) : Surroundings → Tree → Tree → Prop
  | lookup {s : Surroundings} {x : String} {m span span' : Span} {test yes no : Tree}
      (hfree : (s.lookup? x).isSome = true) (htest : StartsLookup s.options again test) :
      Expands again s (.node (.read x) m []) (.node .paren span [.node .conditional span' [test, yes, no]])
  | shorthand {s : Surroundings} {kind : PropertyKind} {computed : Bool} {w w' x : String}
      {span span' span₁ span₂ m n n' : Span} {test yes no : Tree} (hfree : (s.lookup? x).isSome = true)
      (htest : StartsLookup s.options again test) :
      Expands again s (.node (.property kind computed true) span [.node (.name w) n [], .node (.read x) m []])
        (.node (.property kind computed false) span'
          [.node (.name w') n' [], .node .paren span₁ [.node .conditional span₂ [test, yes, no]]])
  | node {s : Surroundings} {label : Label} {span span' : Span} {ks ks' : List Tree}
      (hown : s.own (.node label span ks) = []) (hlength : ks.length = ks'.length)
      (hkids : ∀ i k k', ks[i]? = some k → ks'[i]? = some k' → s.spares label ks i = false →
        Expands again (s.part label ks i) k k')
      (hspared : ∀ i k k', ks[i]? = some k → ks'[i]? = some k' → s.spares label ks i = true →
        Like k k' ∧ k'.label = k.label)
      (htest : label = .conditional → ∀ test test' rest rest', ks = test :: rest → ks' = test' :: rest' →
        StartsLookup s.options s.source test → StartsLookup s.options again test') :
      Expands again s (.node label span ks) (.node label span' ks')

theorem Expands.like (h : Expands again s t t') : Like t t' := by
  induction h with
  | lookup => exact .read
  | shorthand => exact .shorthand
  | @node s label _ _ ks ks' _ hlength _ hspared _ ih =>
    refine .node (forall₂_of_getElem? hlength fun i k k' hk hk' => ?_)
    cases hspares : s.spares label ks i with
    | true => exact (hspared i k k' hk hk' hspares).1
    | false => exact ih i k k' hk hk' hspares

/-! ### What is known in them -/

/-- Whatever keeps a name from being looked up in the first surroundings does so in the second. -/
structure Surroundings.Within (s s' : Surroundings) : Prop where
  options : s'.options = s.options
  bound : ∀ x ∈ s.bound, x ∈ s'.bound
  reexported : ∀ x ∈ s.reexported, x ∈ s'.reexported
  aliases : ∀ x ∈ s.aliases, x ∈ s'.aliases

theorem Surroundings.Within.lookup? (h : s.Within s') (hnone : s.lookup? x = none) : s'.lookup? x = none := by
  unfold Surroundings.lookup? at hnone ⊢
  rw [h.options]
  split
  · rfl
  · next id hscope =>
    simp only [hscope, ite_eq_left_iff, reduceCtorEq, imp_false, not_not, Bool.or_eq_true, List.contains_iff_mem] at hnone
    rw [if_pos]
    simp only [Bool.or_eq_true, List.contains_iff_mem]
    rcases hnone with ((hbound | hhost) | hreexported) | halias
    · exact .inl (.inl (.inl (h.bound x hbound)))
    · exact .inl (.inl (.inr hhost))
    · exact .inl (.inr (h.reexported x hreexported))
    · exact .inr (h.aliases x halias)

theorem Renames.like (h : Renames x t) (hlike : Like t t') : Renames x t' := by
  cases h with
  | pattern hd hp hkey hne =>
    obtain ⟨_, _, rfl, hds⟩ := hlike.kids (by simp) (by simp)
    obtain ⟨d', hd', hlike⟩ := exists_mem_of_forall₂ hds hd
    obtain ⟨_, _, rfl, hparts⟩ := hlike.kids (by simp) (by simp)
    obtain _ | ⟨hpattern, _⟩ := hparts
    obtain ⟨_, _, rfl, hps⟩ := hpattern.kids (by simp) (by simp)
    obtain ⟨p', hp', hlike⟩ := exists_mem_of_forall₂ hps hp
    obtain ⟨_, _, rfl, hproperty⟩ := hlike.kids (by simp) (by simp)
    obtain _ | ⟨hk, _ | ⟨hbinding, _ | _⟩⟩ := hproperty
    obtain ⟨_, _, rfl, _⟩ := hbinding.kids (by simp) (by simp)
    refine .pattern hd' hp' ?_ hne
    rcases hkey with hlabel | ⟨surrogates, hlabel⟩
    · exact .inl ((hk.label_eq (by simp [hlabel]) (by simp [hlabel])).trans hlabel)
    · exact .inr ⟨surrogates, (hk.label_eq (by simp [hlabel]) (by simp [hlabel])).trans hlabel⟩

theorem aliasKeys_like (h : ∀ t ∈ ts, ∀ x, Renames x t → ∃ t' ∈ ts', Renames x t') :
    ∀ x ∈ aliasKeys ts, x ∈ aliasKeys ts' := by
  intro x hx
  obtain ⟨t, ht, hrenames⟩ := mem_aliasKeys.1 hx
  exact mem_aliasKeys.2 (h t ht x hrenames)

/-- What is known in alike parts. -/
theorem Surroundings.Within.part (h : s.Within s') (hks : List.Forall₂ Like ks ks') (i : Nat) :
    (s.part label ks i).Within (s'.part label ks' i) := by
  have hconstant := s.part_constant label ks i
  have hconstant' := s'.part_constant label ks' i
  refine ⟨?_, fun x hx => ?_, ?_, ?_⟩
  · rw [hconstant.1, hconstant'.1, h.options]
  · rw [mem_bound_part] at hx ⊢
    exact hx.imp (h.bound x) fun hx => ⟨hx.1, hx.2.like hks⟩
  · rw [hconstant.2.2, hconstant'.2.2]
    exact h.reexported
  · have hstatements : ∀ x ∈ aliasKeys ks, x ∈ aliasKeys ks' := aliasKeys_like fun t ht x hx => by
      obtain ⟨t', ht', hlike⟩ := exists_mem_of_forall₂ hks ht
      exact ⟨t', ht', hx.like hlike⟩
    have hinside : ∀ x ∈ (s.inside label ks).aliases, x ∈ (s'.inside label ks').aliases := by
      unfold Surroundings.inside
      split
      iterate 3 exact hstatements
      exact h.aliases
    unfold Surroundings.part
    split
    iterate 3 exact h.aliases
    · simp
    · exact hinside

theorem Expands.asksFor (h : Expands again s t t') (hasks : AsksFor x t) : AsksFor x t' := by
  have htypeof {s : Surroundings} {m n : Span} {us : List Tree} {u : Tree}
      (h : Expands again s (.node (.unary .typeof) m [.node (.read x) n us]) u) :
      ∃ m' n' us', u = .node (.unary .typeof) m' [.node (.read x) n' us'] := by
    cases h with
    | @node _ _ _ span' _ ks' _ hlength _ hspared _ =>
      obtain ⟨v', rfl⟩ := List.length_eq_one_iff.1 hlength.symm
      obtain ⟨label, n', us'⟩ := v'
      obtain ⟨_, hlabel⟩ := hspared 0 _ _ rfl rfl rfl
      obtain rfl : label = .read x := hlabel
      exact ⟨_, _, _, rfl⟩
  have hstring {s : Surroundings} {m : Span} {us : List Tree} {u : Tree} {surrogates : Bool}
      (h : Expands again s (.node (.string "undefined" surrogates) m us) u) :
      ∃ m' us', u = .node (.string "undefined" surrogates) m' us' := by
    obtain ⟨_, _, rfl, _⟩ := h.like.kids (by simp) (by simp)
    exact ⟨_, _, rfl⟩
  cases hasks with
  | left hop =>
    cases h with
    | @node _ _ _ span' _ ks' _ hlength hkids _ _ =>
      obtain ⟨l', r', rfl⟩ := List.length_eq_two.1 hlength.symm
      obtain ⟨_, _, _, rfl⟩ := htypeof (hkids 0 _ _ rfl rfl rfl)
      obtain ⟨_, _, rfl⟩ := hstring (hkids 1 _ _ rfl rfl rfl)
      exact .left hop
  | right hop =>
    cases h with
    | @node _ _ _ span' _ ks' _ hlength hkids _ _ =>
      obtain ⟨l', r', rfl⟩ := List.length_eq_two.1 hlength.symm
      obtain ⟨_, _, rfl⟩ := hstring (hkids 0 _ _ rfl rfl rfl)
      obtain ⟨_, _, _, rfl⟩ := htypeof (hkids 1 _ _ rfl rfl rfl)
      exact .right hop

/-- A part that is spared in a script is spared with the lookups in place. -/
theorem Surroundings.Within.spares (h : s.Within s') (hsource : s'.source = again)
    (hregular : Regular text (.node label span ks)) (hlength : ks.length = ks'.length)
    (hkids : ∀ i k k', ks[i]? = some k → ks'[i]? = some k' → s.spares label ks i = false →
        Expands again (s.part label ks i) k k')
    (hspared : ∀ i k k', ks[i]? = some k → ks'[i]? = some k' → s.spares label ks i = true → k'.label = k.label)
    (htest : label = .conditional → ∀ test test' rest rest', ks = test :: rest → ks' = test' :: rest' →
      StartsLookup s.options s.source test → StartsLookup s.options again test')
    (hspares : s.spares label ks i = true) : s'.spares label ks' i = true := by
  have hread {y : String} {k' : Tree} (hlabel : k'.label = .read y) : ∃ m us, k' = .node (.read y) m us := by
    obtain ⟨l, m, us⟩ := k'
    exact ⟨m, us, by rw [show l = .read y from hlabel]⟩
  unfold Surroundings.spares at hspares ⊢
  split
  · rfl
  · obtain ⟨y, hy⟩ := Option.isSome_iff_exists.1 hspares
    obtain ⟨key, m, us, rfl⟩ := valueName?_eq_some_iff.1 hy
    obtain ⟨key', v', rfl⟩ := List.length_eq_two.1 hlength.symm
    obtain ⟨_, _, rfl⟩ := hread (hspared 1 _ _ rfl rfl hspares)
    rfl
  · obtain ⟨y, m, us, rfl⟩ := isNameAlone_eq_true_iff.1 hspares
    obtain ⟨v', rfl⟩ := List.length_eq_one_iff.1 hlength.symm
    obtain ⟨_, _, rfl⟩ := hread (hspared 0 _ _ rfl rfl hspares)
    rfl
  · obtain ⟨test, yes, no, rfl⟩ := List.length_eq_three.1 hregular.fits
    obtain ⟨test', yes', no', rfl⟩ := List.length_eq_three.1 hlength.symm
    cases hlookup : s.isLookup test.span with
    | true =>
      have hagain : s'.isLookup test'.span = true := by
        rw [isLookup_eq_true_iff, h.options, hsource]
        exact htest rfl _ _ _ _ rfl rfl (isLookup_eq_true_iff.1 hlookup)
      simp [Surroundings.sparesBranch, hagain]
    | false =>
      have hasks : Expands again (s.part .conditional [test, yes, no] 0) test test' :=
        hkids 0 _ _ rfl rfl (by simp [Surroundings.spares, Surroundings.sparesBranch, hlookup])
      have hguarded {j : Nat} {k k' : Tree} (hk : [test, yes, no][j]? = some k) (hk' : [test', yes', no'][j]? = some k')
          (hj : s.spares .conditional [test, yes, no] j = true) (h : isGuarded (guardedName test) k = true) :
          isGuarded (guardedName test') k' = true := by
        obtain ⟨y, hy, hlabel⟩ := isGuarded_eq_true_iff.1 h
        refine isGuarded_eq_true_iff.2 ⟨y, ?_, (hspared j _ _ hk hk' hj).trans hlabel⟩
        exact guardedName_eq_some_iff.2 (hasks.asksFor (guardedName_eq_some_iff.1 hy))
      have hcases : (i = 1 ∧ isGuarded (guardedName test) yes = true) ∨
          (i = 2 ∧ isGuarded (guardedName test) no = true) := by
        simpa [Surroundings.sparesBranch, hlookup] using hspares
      rcases hcases with ⟨rfl, hyes⟩ | ⟨rfl, hno⟩
      · simp [Surroundings.sparesBranch, hguarded rfl rfl hspares hyes]
      · simp [Surroundings.sparesBranch, hguarded rfl rfl hspares hno]
  · simp at hspares

/-- A node that stays where it is needs no edit of its own. -/
theorem Surroundings.Within.own (h : s.Within s') (hlength : ks.length = ks'.length)
    (hspared : ∀ i k k', ks[i]? = some k → ks'[i]? = some k' → s.spares label ks i = true → k'.label = k.label)
    (hkids : ∀ i k k', ks[i]? = some k → ks'[i]? = some k' → s.spares label ks i = false →
        Expands again (s.part label ks i) k k')
    (hown : s.own (.node label span ks) = []) : s'.own (.node label span' ks') = [] := by
  unfold Surroundings.own at hown ⊢
  dsimp only at hown ⊢
  split
  · have hnone := h.lookup? (by simpa using hown)
    simp [hnone]
  · rw [h.options]
    split
    · next hregistered => simp [hregistered] at hown
    · rfl
  · split
    · next y hy =>
      obtain ⟨key', m, us, rfl⟩ := valueName?_eq_some_iff.1 hy
      obtain ⟨key, v, rfl⟩ := List.length_eq_two.1 hlength
      obtain ⟨m', us', rfl⟩ : ∃ m' us', v = .node (.read y) m' us' := by
        cases hspares : s.spares (.property _ _ true) [key, v] 1 with
        | true =>
          obtain ⟨l, m', us'⟩ := v
          have hlabel : Label.read y = l := hspared 1 _ _ rfl rfl hspares
          exact ⟨m', us', by rw [hlabel]⟩
        | false =>
          cases hkids 1 _ _ rfl rfl hspares with
          | node => exact ⟨_, _, rfl⟩
      have hnone := h.lookup? (by simpa [valueName?] using hown)
      simp [hnone]
    · rfl
  · rfl

/-- The item imports from the registry. -/
def IsRegisteredImport (options : Options) (t : Tree) : Prop :=
  ∃ phase source bare typeOnly m ks, t = .node (.importDecl phase source bare typeOnly) m ks ∧
    isRegistered options.globals options.registerImports source = true

/-- Whether a node with the label reads a name that may not be one of the page, or imports something. -/
def leavesPage (g : RuntimeGlobals) : Label → Bool
  | .read x => !g.isHostGlobal x
  | .importDecl _ _ _ _ => true
  | _ => false

/-- The items of a script with its lookups put in, as they are read from the text `again`. Other statements stand in
the places of the registered imports: they bind the same names, and read names of the page only. -/
structure ExpandsItems (again : List Char) (s : Surroundings) (items items' : List Tree) : Prop where
  kept : ∀ t ∈ items, ¬IsRegisteredImport s.options t → ∃ t' ∈ items', Expands again s t t'
  bound : ∀ t ∈ items, IsRegisteredImport s.options t → ∀ x, DeclaresHere x t → ∃ t' ∈ items', DeclaresHere x t'
  made : ∀ t' ∈ items', (∃ t ∈ items, Expands again s t t') ∨ t'.anyLabel (leavesPage s.options.globals) = false

/-- An import hoists no name. -/
theorem not_hoists_import (hregular : Regular text t) (himport : IsRegisteredImport options t) : ¬Hoists x t := by
  obtain ⟨phase, source, bare, typeOnly, m, ks, rfl, _⟩ := himport
  intro h
  cases h with
  | @inside _ _ _ k _ _ hk h =>
    have hpart : k.isImportPart = true := hregular.fits _ hk
    obtain ⟨label, span, us⟩ := k
    obtain rfl : us = [] := Tree.isImportPart.kids hpart
    exact not_hoists_leaf h

theorem ExpandsItems.exists_like {items items' : List Tree} (h : ExpandsItems again s items items') (ht : t ∈ items)
    (hlabel : ∀ phase source bare typeOnly, t.label ≠ .importDecl phase source bare typeOnly) :
    ∃ t' ∈ items', Like t t' := by
  obtain ⟨t', ht', hexpands⟩ := h.kept t ht (by
    rintro ⟨_, _, _, _, _, _, rfl, _⟩
    exact hlabel _ _ _ _ rfl)
  exact ⟨t', ht', hexpands.like⟩

theorem ExpandsItems.reexported {items items' : List Tree} (h : ExpandsItems again s items items') :
    ∀ x ∈ reexportedNames items, x ∈ reexportedNames items' := by
  intro x hx
  obtain ⟨t, ht, hx⟩ := List.mem_flatMap.1 hx
  split at hx
  · obtain ⟨t', ht', hlike⟩ := h.exists_like ht (by simp)
    obtain ⟨_, _, rfl, hks⟩ := hlike.kids (by simp) (by simp)
    obtain ⟨k, hk, hx⟩ := List.mem_flatMap.1 hx
    split at hx
    · next n e p hlabel =>
      obtain ⟨k', hk', hlike⟩ := exists_mem_of_forall₂ hks hk
      have hlabel' := (hlike.label_eq (by simp [hlabel]) (by simp [hlabel])).trans hlabel
      exact List.mem_flatMap.2 ⟨_, ht', List.mem_flatMap.2 ⟨k', hk', by simpa [hlabel'] using hx⟩⟩
    · simp at hx
  · simp at hx

/-- What is known among the items of a script is known with the lookups in place. -/
theorem ExpandsItems.within {s₀ : Surroundings} (s₀' : Surroundings) {items items' : List Tree}
    (h : ExpandsItems again (s₀.part .program items i) items items') (hregular : ∀ t ∈ items, Regular text t)
    (hoptions : s₀'.options = s₀.options) (hbound : s₀.bound = []) (hreexported : s₀.reexported = reexportedNames items)
    (hreexported' : s₀'.reexported = reexportedNames items') (j : Nat) :
    (s₀.part .program items i).Within (s₀'.part .program items' j) := by
  have hconstant := s₀.part_constant .program items i
  have hconstant' := s₀'.part_constant .program items' j
  refine ⟨?_, fun x hx => ?_, ?_, ?_⟩
  · rw [hconstant.1, hconstant'.1, hoptions]
  · rw [mem_bound_part, hbound] at hx
    obtain ⟨_, hx⟩ := hx.resolve_left (by simp)
    rw [mem_bound_part]
    refine .inr ⟨rfl, ?_⟩
    cases hx with
    | hoisted hlabel hk hx =>
      obtain ⟨k', hk', hexpands⟩ := h.kept _ hk fun himport => not_hoists_import (hregular _ hk) himport hx
      exact .hoisted hlabel hk' (hx.like hexpands.like)
    | @statement _ _ k hlabel hk hx =>
      by_cases himport : IsRegisteredImport (s₀.part .program items i).options k
      · obtain ⟨k', hk', hx⟩ := h.bound k hk himport x hx
        exact .statement hlabel hk' hx
      · obtain ⟨k', hk', hexpands⟩ := h.kept k hk himport
        exact .statement hlabel hk' (hx.like hexpands.like)
    | name hlabel => simp at hlabel
    | loop hlabel => simp at hlabel
    | loopAlone hlabel => simp at hlabel
  · rw [hconstant.2.2, hconstant'.2.2, hreexported, hreexported']
    exact h.reexported
  · refine aliasKeys_like fun t ht x hx => ?_
    obtain ⟨t', ht', hlike⟩ := h.exists_like ht (by rintro _ _ _ _ hlabel; cases hx; simp at hlabel)
    exact ⟨t', ht', hx.like hlike⟩

/-- A node in whose parts the same is known, and none of which is spared. -/
theorem Expands.inside (hown : s.own (.node label span ks) = []) (hspares : ∀ i, s.spares label ks i = false)
    (hpart : ∀ i, s.part label ks i = s.inside label ks) (hlabel : label ≠ .conditional)
    (hks : List.Forall₂ (Expands again (s.inside label ks)) ks ks') :
    Expands again s (.node label span ks) (.node label span' ks') := by
  refine .node hown hks.length_eq (fun i k k' hk hk' _ => ?_) (fun i k k' _ _ h => ?_) fun h => absurd h hlabel
  · rw [hpart]
    exact rel_of_forall₂ hks hk hk'
  · simp [hspares] at h

end LiveNotes.Transpile
