import LiveNotes.Proofs.Bundle.WrapperNames

/-! The order of a wrapper. Each statement of a module is edited where it stands: the text that links an item which
names another module takes the place of the item, and no statement changes places with another one. -/

namespace LiveNotes.Bundle

open Script Text Grammar Edit

/-- The items of the calls in a statement. -/
def callItems (t : Tree) : List LinkItem := (dynamicAnalysis (dynamicImports t)).items

/-- The edits for some items, when `sources` modules were bound in front of them. -/
inductive Leaves (g : ModuleGraph) (importer : String) : Nat → List LinkItem → List Edit → Prop
  | nil (sources : Nat) : Leaves g importer sources [] []
  | item {sources : Nat} {item : LinkItem} {items : List LinkItem} {es : List Edit} {target : String}
      (expression : Expression g importer item target) (rest : Leaves g importer (sources + item.kind.bound) items es) :
      Leaves g importer sources (item :: items) (item.edits target sources ++ es)
  | unknown {sources : Nat} {span : Span} {specifier : String} {items : List LinkItem} {es : List Edit}
      (missing : g.resolve? importer specifier = none) (rest : Leaves g importer sources items es) :
      Leaves g importer sources (⟨span, .dynamicImport specifier⟩ :: items) es

/-- From byte `pos` on, behind `sources` bound modules, a text becomes another one statement by statement. What
links an item that names another module stands in the place of the item; from all other statements only what
exports them is taken, and calls in them are replaced. -/
inductive InPlace (g : ModuleGraph) (importer : String) (source : List Char) :
    Nat → Nat → List Tree → List Char → List Char → Prop
  | done (pos sources : Nat) (text : List Char) : InPlace g importer source pos sources [] text text
  | link {pos sources : Nat} {t : Tree} {ts : List Tree} {item : LinkItem} {specifier target linking : String}
      {front old back rest made : List Char} (only : (itemAnalysis source t).items = [item])
      (names : item.kind.specifier? = some specifier) (start : t.span.start = pos + byteLength front)
      (stop : t.span.stop = t.span.start + byteLength old) (expression : Expression g importer item target)
      (edits : item.edits target sources = [⟨t.span.start, t.span.stop, linking⟩])
      (more : InPlace g importer source (pos + byteLength (front ++ old ++ back)) (sources + item.kind.bound) ts rest
        made) :
      InPlace g importer source pos sources (t :: ts) (front ++ old ++ back ++ rest)
        (front ++ linking.toList ++ back ++ made)
  | other {pos sources : Nat} {t : Tree} {ts : List Tree} {es ds : List Edit} {old rest made : List Char}
      (nothing : ∀ item ∈ (itemAnalysis source t).items, item.kind.specifier? = none)
      (start : pos ≤ t.span.start) (stop : t.span.stop ≤ pos + byteLength old)
      (own : Leaves g importer sources (itemAnalysis source t).items es)
      (calls : Leaves g importer sources (callItems t) ds)
      (more : InPlace g importer source (pos + byteLength old) sources ts rest made) :
      InPlace g importer source pos sources (t :: ts) (old ++ rest) (madeIn pos old (es ++ ds) ++ made)

variable {g : ModuleGraph} {importer code id : String} {a : Analysis} {text lead rest : List Char} {t : Tree}
  {ts : List Tree} {item : LinkItem} {items others : List LinkItem} {e : Edit} {es ds : List Edit} {n m lo hi : Nat}

/-! ### Edits of items -/

theorem edits_eq_of_bound (h : item.kind.bound = 0) (target : String) (n m : Nat) :
    item.edits target n = item.edits target m := by
  obtain ⟨span, kind⟩ := item
  rcases kind with _ | _ | ⟨_, _ | _⟩ | _ | _ | _
  all_goals first | rfl | contradiction

namespace Leaves

theorem split (h : Leaves g importer n (items ++ others) es) :
    ∃ es₁ es₂, es = es₁ ++ es₂ ∧ Leaves g importer n items es₁ ∧
      Leaves g importer (n + (items.map (·.kind.bound)).sum) others es₂ := by
  induction items generalizing n es with
  | nil => exact ⟨[], es, rfl, .nil _, h⟩
  | cons item items ih =>
    cases h with
    | item expression hrest =>
      obtain ⟨es₁, es₂, rfl, hfront, hback⟩ := ih hrest
      refine ⟨_, es₂, (List.append_assoc ..).symm, .item expression hfront, ?_⟩
      rwa [List.map_cons, List.sum_cons, ← Nat.add_assoc]
    | unknown hmissing hrest =>
      obtain ⟨es₁, es₂, rfl, hfront, hback⟩ := ih hrest
      refine ⟨es₁, es₂, rfl, .unknown hmissing hfront, ?_⟩
      have hbound (specifier : String) : (LinkKind.dynamicImport specifier).bound = 0 := rfl
      rwa [List.map_cons, List.sum_cons, hbound, Nat.zero_add]

theorem exists_item (h : Leaves g importer n items es) (he : e ∈ es) :
    ∃ item ∈ items, ∃ target k, e ∈ item.edits target k := by
  induction h with
  | nil => contradiction
  | item expression hrest ih =>
    rcases List.mem_append.1 he with he | he
    · exact ⟨_, List.mem_cons_self, _, _, he⟩
    · obtain ⟨item, hitem, hmore⟩ := ih he
      exact ⟨item, List.mem_cons_of_mem _ hitem, hmore⟩
  | unknown _ _ ih =>
    obtain ⟨item, hitem, hmore⟩ := ih he
    exact ⟨item, List.mem_cons_of_mem _ hitem, hmore⟩

/-- Only the names of bound modules are numbered. -/
theorem renumber (h : Leaves g importer n items es) (hnone : ∀ item ∈ items, item.kind.bound = 0) (m : Nat) :
    Leaves g importer m items es := by
  induction h with
  | nil => exact .nil _
  | item expression _ ih =>
    obtain ⟨hitem, hitems⟩ := List.forall_mem_cons.1 hnone
    rw [edits_eq_of_bound hitem _ _ m]
    refine .item expression ?_
    rw [hitem]
    exact ih hitems
  | unknown hmissing _ ih => exact .unknown hmissing (ih (List.forall_mem_cons.1 hnone).2)

end Leaves

theorem exists_leaves (g : ModuleGraph) (importer : String) (items : List LinkItem) (l : Linked) : ∃ es,
    (items.foldl (Linked.add g importer) l).edits = l.edits ++ es ∧ Leaves g importer l.sources items es := by
  induction items generalizing l with
  | nil => exact ⟨[], (List.append_nil _).symm, .nil _⟩
  | cons item items ih =>
    obtain ⟨es, hedits, hrest⟩ := ih (l.add g importer item)
    rw [sources_add] at hrest
    rcases Linked.edits_add g importer l item with ⟨specifier, hkind, hmissing, hsame⟩ | ⟨target, hexpression, hitem⟩
    · obtain ⟨span, kind⟩ := item
      obtain rfl : kind = .dynamicImport specifier := hkind
      exact ⟨es, by rw [List.foldl_cons, hedits, hsame], .unknown hmissing hrest⟩
    · refine ⟨item.edits target l.sources ++ es, ?_, .item hexpression hrest⟩
      rw [List.foldl_cons, hedits, hitem, List.append_assoc]

/-- The edit replaces a part of the text between `lo` and `hi`, and does not end where that starts. -/
structure Between (text : List Char) (lo hi : Nat) (e : Edit) : Prop where
  start : lo ≤ e.start
  stop : e.stop ≤ hi
  lt : lo < e.stop
  old : ∃ old, e.Replaces text old

theorem Between.weaken (h : Between text lo hi e) (hlo : n ≤ lo) (hhi : hi ≤ m) : Between text n m e :=
  ⟨Nat.le_trans hlo h.start, Nat.le_trans h.stop hhi, Nat.lt_of_le_of_lt hlo h.lt, h.old⟩

theorem exists_replaces {start stop : Nat} (hstart : IsPlace text start) (hstop : IsPlace text stop)
    (hle : start ≤ stop) (new : String) : ∃ old, Replaces text ⟨start, stop, new⟩ old := by
  obtain ⟨old, before, after, htext, hbefore, hold⟩ := exists_holds (m := ⟨start, stop⟩) hstart hstop hle
  exact ⟨old, before, after, htext, hbefore, hold.trans (congrArg (· + byteLength old) hbefore.symm)⟩

theorem Between.of_lies {s : Span} (h : s.Lies text lo hi) (new : String) :
    Between text lo hi ⟨s.start, s.stop, new⟩ :=
  ⟨h.lo_le, h.le_hi, Nat.lt_of_le_of_lt h.lo_le h.lt, exists_replaces h.start h.stop (Nat.le_of_lt h.lt) new⟩

/-- A semicolon where something ends. -/
theorem Between.of_stop {s : Span} (h : s.Lies text lo hi) (new : String) :
    Between text lo hi ⟨s.stop, s.stop, new⟩ :=
  ⟨Nat.le_trans h.lo_le (Nat.le_of_lt h.lt), h.le_hi, Nat.lt_of_le_of_lt h.lo_le h.lt,
    exists_replaces h.stop h.stop (Nat.le_refl _) new⟩

/-- An item is replaced as a whole, and a semicolon may stand behind what it exports. -/
theorem edits_cases (item : LinkItem) (target : String) (k : Nat) : ∃ new,
    item.edits target k = [⟨item.span.start, item.span.stop, new⟩] ∨ ∃ at_, item.kind = .defaultExpr (some at_) ∧
      item.edits target k = [⟨item.span.start, item.span.stop, new⟩, ⟨at_, at_, ";"⟩] := by
  obtain ⟨span, kind⟩ := item
  rcases kind with _ | _ | ⟨_, _ | _⟩ | ⟨_ | at_⟩ | _ | _
  case defaultExpr.some => exact ⟨_, .inr ⟨at_, rfl, rfl⟩⟩
  all_goals exact ⟨_, .inl rfl⟩

theorem mem_edits {target : String} {k : Nat} (h : e ∈ item.edits target k) :
    (∃ new, e = ⟨item.span.start, item.span.stop, new⟩) ∨
      ∃ at_, item.kind = .defaultExpr (some at_) ∧ e = ⟨at_, at_, ";"⟩ := by
  obtain ⟨new, hone | ⟨at_, hkind, htwo⟩⟩ := edits_cases item target k
  · rw [hone] at h
    exact .inl ⟨new, List.mem_singleton.1 h⟩
  · rw [htwo] at h
    rcases List.mem_cons.1 h with rfl | h
    · exact .inl ⟨new, rfl⟩
    · exact .inr ⟨at_, hkind, List.mem_singleton.1 h⟩

/-- A statement has one item at most. It is all of the statement if that names another module or lists exports, and
else what stands in front of the exported. -/
theorem items_cases (source : List Char) (t : Tree) : (itemAnalysis source t).items = [] ∨
    (t.label.isLink = true ∧ ∃ kind, kind.isDefault = false ∧ (itemAnalysis source t).items = [⟨t.span, kind⟩]) ∨
    ((t.label = .exportDecl ∨ t.label = .exportDefault) ∧ ∃ d kind, t.kids = [d] ∧
      (∀ at_, kind = .defaultExpr (some at_) → at_ = t.span.stop) ∧
      (itemAnalysis source t).items = [⟨⟨t.span.start, d.span.start⟩, kind⟩]) := by
  unfold itemAnalysis
  split
  · exact .inr (.inl ⟨rfl, _, rfl, rfl⟩)
  · exact .inr (.inl ⟨rfl, _, rfl, rfl⟩)
  · exact .inr (.inl ⟨rfl, _, rfl, rfl⟩)
  · exact .inr (.inr ⟨.inl rfl, _, .remove, rfl, nofun, rfl⟩)
  · next span d =>
    refine .inr (.inr ⟨.inr rfl, d, ?_⟩)
    unfold defaultExport
    split
    · exact ⟨.remove, rfl, nofun, rfl⟩
    · refine ⟨_, rfl, fun at_ hat => ?_, rfl⟩
      have hsome : (if isTerminated source span.stop then none else some span.stop) = some at_ :=
        LinkKind.defaultExpr.inj hat
      split at hsome
      · contradiction
      · exact (Option.some.inj hsome).symm
  · exact .inr (.inl ⟨rfl, _, rfl, rfl⟩)
  · exact .inl rfl

theorem isModuleItem_of_isLink (h : t.label.isLink = true) : isModuleItem t = true := by
  cases hlabel : t.label <;> simp_all [isModuleItem, Label.isLink]

theorem isModuleItem_of_isExport (h : t.label = .exportDecl ∨ t.label = .exportDefault) : isModuleItem t = true := by
  rcases h with h | h <;> simp [isModuleItem, h]

theorem between_itemAnalysis (h : Stands text lo hi t) (hitem : item ∈ (itemAnalysis text t).items) {target : String}
    {k : Nat} (he : e ∈ item.edits target k) : Between text lo hi e := by
  rcases items_cases text t with hnone | ⟨hlink, kind, hkind, hone⟩ | ⟨hexport, d, kind, hkids, hat, hone⟩
  · rw [hnone] at hitem
    contradiction
  · rw [hone] at hitem
    obtain rfl := List.mem_singleton.1 hitem
    rcases mem_edits he with ⟨new, rfl⟩ | ⟨at_, hat, -⟩
    · exact .of_lies (h.item (isModuleItem_of_isLink hlink)) new
    · obtain rfl : kind = .defaultExpr (some at_) := hat
      contradiction
  · rw [hone] at hitem
    obtain rfl := List.mem_singleton.1 hitem
    rcases mem_edits he with ⟨new, rfl⟩ | ⟨at_, hkind, rfl⟩
    · exact .of_lies (h.front hexport d (hkids ▸ List.mem_singleton_self d)).1 new
    · rw [hat at_ hkind]
      exact .of_stop (h.item (isModuleItem_of_isExport hexport)) ";"

mutual

/-- The calls that name a module are calls. -/
theorem spans_sublist (t : Tree) : ((dynamicImports t).map Prod.fst).Sublist t.calls := by
  obtain ⟨label, span, ks⟩ := t
  unfold dynamicImports
  rw [List.map_append]
  split
  · exact (spansAll_sublist _).cons_cons span
  · exact (spansAll_sublist ks).trans (callsAll_sublist label span ks)

theorem spansAll_sublist (ts : List Tree) : ((dynamicImportsAll ts).map Prod.fst).Sublist (Tree.callsAll ts) := by
  cases ts with
  | nil => exact List.Sublist.refl _
  | cons t ts =>
    rw [dynamicImportsAll, List.map_append, Tree.callsAll]
    exact (spans_sublist t).append (spansAll_sublist ts)

end

theorem span_mem_calls {call : Span × String} (t : Tree) (h : call ∈ dynamicImports t) : call.1 ∈ t.calls :=
  (spans_sublist t).subset (List.mem_map_of_mem h)

theorem between_callItems (h : Stands text lo hi t) (hitem : item ∈ callItems t) {target : String}
    {k : Nat} (he : e ∈ item.edits target k) : Between text lo hi e := by
  obtain ⟨call, hcall, rfl⟩ := List.mem_map.1 hitem
  rcases mem_edits he with ⟨new, rfl⟩ | ⟨at_, hat, -⟩
  · exact .of_lies (h.calls _ (span_mem_calls t hcall)) new
  · contradiction

/-! ### Statement by statement -/

/-- What a statement is to other modules: it names one, and its only item is all of it, or it names none. -/
theorem itemAnalysis_cases (source : List Char) (t : Tree) :
    (∃ item specifier, (itemAnalysis source t).items = [item] ∧ item.kind.specifier? = some specifier ∧
      item.kind.isDynamic = false ∧ t.label.isLink = true ∧
      ∀ target sources, ∃ linking, item.edits target sources = [⟨t.span.start, t.span.stop, linking⟩]) ∨
    ∀ item ∈ (itemAnalysis source t).items, item.kind.specifier? = none := by
  unfold itemAnalysis
  split
  · exact .inl ⟨_, _, rfl, rfl, rfl, rfl, fun _ _ => ⟨_, rfl⟩⟩
  · exact .inl ⟨_, _, rfl, rfl, rfl, rfl, fun _ _ => ⟨_, rfl⟩⟩
  · exact .inr (List.forall_mem_singleton.2 rfl)
  · exact .inr (List.forall_mem_singleton.2 rfl)
  · right
    unfold defaultExport
    split
    · exact List.forall_mem_singleton.2 rfl
    · exact List.forall_mem_singleton.2 rfl
  · next asName specifier typeOnly span ks =>
    refine .inl ⟨_, _, rfl, rfl, rfl, rfl, fun _ _ => ?_⟩
    cases asName with
    | none => exact ⟨_, rfl⟩
    | some name => exact ⟨_, rfl⟩
  · exact .inr nofun

theorem bound_of_specifier? (h : item.kind.specifier? = none) : item.kind.bound = 0 := by
  obtain ⟨span, kind⟩ := item
  rcases kind with _ | _ | ⟨_, _ | _⟩ | _ | _ | _
  all_goals first | rfl | contradiction

theorem bound_callItems (h : item ∈ callItems t) : item.kind.bound = 0 := by
  obtain ⟨call, -, rfl⟩ := List.mem_map.1 h
  rfl

theorem callItems_eq_nil (h : t.calls = []) : callItems t = [] := by
  have hnone : dynamicImports t = [] := List.eq_nil_iff_forall_not_mem.2 fun call hcall => by
    have hmem := span_mem_calls t hcall
    rw [h] at hmem
    contradiction
  rw [callItems, hnone]
  rfl

theorem between_lined (h : Lined text n ts m) {k l : Nat}
    (hes : Leaves g importer k (ts.flatMap fun t => (itemAnalysis text t).items) es)
    (hds : Leaves g importer l (ts.flatMap callItems) ds) : ∀ e ∈ es ++ ds, Between text n m e := by
  have hstands {t : Tree} (ht : t ∈ ts) := h.exists_stands ht
  intro e he
  rcases List.mem_append.1 he with he | he
  · obtain ⟨item, hitem, target, k, he⟩ := hes.exists_item he
    obtain ⟨t, ht, hitem⟩ := List.mem_flatMap.1 hitem
    obtain ⟨lo, hi, hlo, hhi, hstands⟩ := hstands ht
    exact (between_itemAnalysis hstands hitem he).weaken hlo hhi
  · obtain ⟨item, hitem, target, k, he⟩ := hds.exists_item he
    obtain ⟨t, ht, hitem⟩ := List.mem_flatMap.1 hitem
    obtain ⟨lo, hi, hlo, hhi, hstands⟩ := hstands ht
    exact (between_callItems hstands hitem he).weaken hlo hhi

/-- A place of the text behind a part of it. -/
theorem exists_front (hplace : IsPlace (lead ++ rest) hi) (hle : byteLength lead ≤ hi) :
    ∃ front back, rest = front ++ back ∧ byteLength (lead ++ front) = hi := by
  obtain ⟨old, hold⟩ := exists_replaces hplace hplace (Nat.le_refl _) ""
  obtain ⟨front, back, hrest, hstart, hstop⟩ := hold.exists_rest hle
  have hnil : old = [] := by
    cases old with
    | nil => rfl
    | cons c cs =>
      have := c.utf8Size_pos
      simp only [byteLength] at hstop
      omega
  subst hnil
  refine ⟨front, back, by simpa using hrest, ?_⟩
  rw [byteLength_append]
  exact hstart.symm

section Step

variable {front back made : List Char} {own calls : List Edit} {sources k : Nat}

theorem filter_cut {p : Edit → Bool} (hes : ∀ e ∈ es, p e = true) (hds : ∀ e ∈ ds, p e = false) :
    (es ++ ds).filter p = es ∧ (es ++ ds).filter (!p ·) = ds := by
  rw [List.filter_append, List.filter_append, List.filter_eq_self.2 hes,
    List.filter_eq_nil_iff.2 fun e he => by simp [hds e he], List.filter_eq_nil_iff.2 fun e he => by simp [hes e he],
    List.filter_eq_self.2 fun e he => by simp [hds e he]]
  exact ⟨List.append_nil es, List.nil_append ds⟩

/-- The edits of a statement are made in its part of the text, and those of later ones behind it. -/
theorem madeIn_cut (hfront : byteLength (lead ++ front) = hi) (hlead : byteLength lead ≤ lo)
    (hinside : ∀ e ∈ own ++ calls, Between (lead ++ (front ++ back)) lo hi e)
    (hbehind : ∀ e ∈ es ++ ds, Between (lead ++ (front ++ back)) hi m e) :
    madeIn (byteLength lead) (front ++ back) (own ++ es ++ (calls ++ ds)) =
      madeIn (byteLength lead) front (own ++ calls) ++ madeIn hi back (es ++ ds) := by
  have hall : ∀ e ∈ own ++ es ++ (calls ++ ds), e ∈ own ++ calls ∨ e ∈ es ++ ds := by
    simp only [List.mem_append]
    tauto
  have hends : ∀ e ∈ own ++ calls, endsBy hi e = true := fun e he => by simpa [endsBy] using (hinside e he).stop
  have hlater : ∀ e ∈ es ++ ds, endsBy hi e = false := fun e he => by simpa [endsBy] using (hbehind e he).lt
  obtain ⟨hown, hcalls⟩ := List.forall_mem_append.1 hends
  obtain ⟨hes, hds⟩ := List.forall_mem_append.1 hlater
  have hfilter : (own ++ es ++ (calls ++ ds)).filter (endsBy hi) = own ++ calls := by
    rw [List.filter_append, (filter_cut hown hes).1, (filter_cut hcalls hds).1]
  have hfilter' : (own ++ es ++ (calls ++ ds)).filter (!endsBy hi ·) = es ++ ds := by
    rw [List.filter_append, (filter_cut hown hes).2, (filter_cut hcalls hds).2]
  rw [madeIn_append, hfront, hfilter, hfilter']
  · intro e he
    rw [List.append_assoc]
    exact (hall e he).elim (fun he => (hinside e he).old) fun he => (hbehind e he).old
  · intro e he
    rcases hall e he with he | he
    · exact Nat.le_trans hlead (hinside e he).start
    · have hpart : byteLength lead ≤ hi := by
        rw [← hfront, byteLength_append]
        exact Nat.le_add_right _ _
      exact Nat.le_trans hpart (hbehind e he).start
  · intro e he hlt
    rw [hfront] at hlt ⊢
    rcases hall e he with he | he
    · have := (hinside e he).stop
      omega
    · exact (hbehind e he).start

/-- One statement is edited in its part of the text. -/
theorem InPlace.statement (hstands : Stands (lead ++ (front ++ back)) lo hi t) (hlead : byteLength lead ≤ lo)
    (hfront : byteLength (lead ++ front) = hi)
    (hown : Leaves g importer sources (itemAnalysis (lead ++ (front ++ back)) t).items own)
    (hcalls : Leaves g importer k (callItems t) calls)
    (hmore : InPlace g importer (lead ++ (front ++ back)) hi
      (sources + ((itemAnalysis (lead ++ (front ++ back)) t).items.map (·.kind.bound)).sum) ts back made) :
    InPlace g importer (lead ++ (front ++ back)) (byteLength lead) sources (t :: ts) (front ++ back)
      (madeIn (byteLength lead) front (own ++ calls) ++ made) := by
  have hhi : hi = byteLength lead + byteLength front := by rw [← hfront, byteLength_append]
  rcases itemAnalysis_cases (lead ++ (front ++ back)) t with
    ⟨item, specifier, honly, hnames, hstatic, hlink, hedits⟩ | hnothing
  · -- an item that names a module has no calls in it, so there is just one edit here
    rw [honly] at hown hmore
    rw [callItems_eq_nil (hstands.link hlink)] at hcalls
    cases hcalls
    obtain ⟨target, hexpression, rfl⟩ : ∃ target, Expression g importer item target ∧
        own = item.edits target sources := by
      cases hown with
      | item hexpression hnil =>
        cases hnil
        exact ⟨_, hexpression, List.append_nil _⟩
      | unknown _ _ => contradiction
    obtain ⟨linking, hlinking⟩ := hedits target sources
    have hlies := hstands.item (isModuleItem_of_isLink hlink)
    obtain ⟨old, hold⟩ := (Between.of_lies hlies linking).old
    rw [← List.append_assoc] at hold
    obtain ⟨gap, more, rfl, hstart, hstop⟩ := hold.exists_front (Nat.le_trans hlead hlies.lo_le) (hfront ▸ hlies.le_hi)
    rw [List.append_nil, hlinking, madeIn_singleton hstart hstop]
    rw [hhi] at hmore
    exact .link honly hnames hstart hstop hexpression hlinking (by simpa using hmore)
  · -- nothing else binds a module, so the numbers go on as they are
    have hbound : ((itemAnalysis (lead ++ (front ++ back)) t).items.map (·.kind.bound)).sum = 0 := by
      refine List.sum_eq_zero_iff_forall_eq_nat.2 fun k hk => ?_
      obtain ⟨item, hitem, rfl⟩ := List.mem_map.1 hk
      exact bound_of_specifier? (hnothing item hitem)
    rw [hbound, Nat.add_zero, hhi] at hmore
    refine .other hnothing (Nat.le_trans hlead hstands.start) (hhi ▸ hstands.stop) hown ?_ hmore
    exact hcalls.renumber (fun item hitem => bound_callItems hitem) _

end Step

/-- The edits of the statements from one on are made statement by statement. -/
theorem inPlace_madeIn (h : Lined (lead ++ rest) n ts m) (hlead : byteLength lead ≤ n) {k sources : Nat}
    (hes : Leaves g importer sources (ts.flatMap fun t => (itemAnalysis (lead ++ rest) t).items) es)
    (hds : Leaves g importer k (ts.flatMap callItems) ds) :
    InPlace g importer (lead ++ rest) (byteLength lead) sources ts rest (madeIn (byteLength lead) rest (es ++ ds)) := by
  -- what is in front grows by the part of a statement, and the text as a whole stays
  generalize hsource : lead ++ rest = source at *
  induction h generalizing lead rest es ds sources k with
  | nil hle =>
    cases hes
    cases hds
    rw [List.append_nil, madeIn_nil]
    exact .done _ _ _
  | @cons n lo hi m t ts hle hstands hmore ih =>
    subst hsource
    rw [List.flatMap_cons] at hes hds
    obtain ⟨own, es, rfl, hown, hes⟩ := hes.split
    obtain ⟨calls, ds, rfl, hcalls, hds⟩ := hds.split
    have hlo := Nat.le_trans hlead hle
    obtain ⟨front, back, rfl, hfront⟩ := exists_front hstands.place (Nat.le_trans hlo hstands.le)
    have hinside : ∀ e ∈ own ++ calls, Between (lead ++ (front ++ back)) lo hi e := by
      intro e he
      rcases List.mem_append.1 he with he | he
      · obtain ⟨item, hitem, target, k, he⟩ := hown.exists_item he
        exact between_itemAnalysis hstands hitem he
      · obtain ⟨item, hitem, target, k, he⟩ := hcalls.exists_item he
        exact between_callItems hstands hitem he
    rw [madeIn_cut hfront hlo hinside (between_lined hmore hes hds)]
    refine .statement hstands hlo hfront hown hcalls ?_
    have hrest := ih (Nat.le_of_eq hfront) hds (List.append_assoc ..) hes
    rwa [hfront] at hrest

theorem items_dynamicImports (h : t.label = .program) :
    (dynamicAnalysis (dynamicImports t)).items = t.kids.flatMap callItems := by
  obtain ⟨label, span, ks⟩ := t
  obtain rfl : label = .program := h
  have hall : dynamicImportsAll ks = ks.flatMap dynamicImports := by
    induction ks with
    | nil => rfl
    | cons t ks ih => rw [dynamicImportsAll, ih, List.flatMap_cons]
  have hcalls : dynamicImports (.node .program span ks) = dynamicImportsAll ks := List.nil_append _
  rw [hcalls, hall]
  exact List.map_flatMap

/-- The wrapper of a module that is analyzed is edited statement by statement, in the order of the module: what
links an item that names another module stands in the place of the item. -/
theorem inPlace_moduleText (h : analyze code id = .ok a) : ∃ script, parse .plainModule code = some script ∧
    ∀ (g : ModuleGraph) (i : Nat) (externals : List String), g.get? i = some ⟨id, code, a⟩ → ∃ made,
      InPlace g id code.toList 0 0 script.tree.kids code.toList made ∧
      (g.moduleText externals i).1 = "// " ++ displayId id ++ "\n__modules[" ++ toString i ++
        "] = function (module, exports, __require) \x7b\n" ++ gettersText (g.link externals ⟨id, code, a⟩).getters ++
        String.ofList (dropEnd isWhiteSpace made) ++ "\n\x7d;\n" := by
  obtain ⟨script, hscript, hitems⟩ := exists_of_analyze h
  refine ⟨script, hscript, fun g i externals hm => ?_⟩
  obtain ⟨m, hlined⟩ := lined_parse hscript
  obtain ⟨es, hedits, hleaves⟩ := exists_leaves g id a.items
    { getters := a.exports, externals := externals }
  rw [hitems, items_dynamicImports (label_parse hscript)] at hleaves
  obtain ⟨own, calls, rfl, hown, hcalls⟩ := hleaves.split
  refine ⟨(apply code (g.link externals ⟨id, code, a⟩).edits).toList, ?_, ?_⟩
  · have hlink : (g.link externals ⟨id, code, a⟩).edits = own ++ calls := hedits
    rw [toList_apply, hlink]
    change InPlace g id ([] ++ code.toList) (byteLength []) 0 script.tree.kids code.toList
      (madeIn (byteLength []) code.toList (own ++ calls))
    exact inPlace_madeIn hlined (Nat.le_refl _) hown hcalls
  · rw [ModuleGraph.moduleText, hm]

/-- A module that imports another one behind a statement of its own. -/
def lateImport : Module :=
  ⟨"index.js", "const a = 1;\nimport \x22./b.js\x22;", {
    imports := [⟨"./b.js", false, []⟩]
    items := [⟨⟨13, 29⟩, .importNames "./b.js" []⟩] }⟩

def lateImportGraph : ModuleGraph where
  modules := [lateImport, ⟨"b.js", "export const b = 1;", { items := [⟨⟨0, 7⟩, .remove⟩], exports := [("b", "b")] }⟩]
  edges := [⟨"index.js", "./b.js", "b.js", false⟩]

/-- What the wrapper of the first module starts with. -/
abbrev lateHead : String := "// index.js\n__modules[0] = function (module, exports, __require) \x7b\n"

theorem apply_lateImport :
    apply lateImport.source (lateImportGraph.link [] lateImport).edits = "const a = 1;\n__require(1);" := by
  rw [apply_of_pairwise (by decide +kernel)]
  decide +kernel

theorem inPlace_moduleText_lateImport : ∃ script made, parse .plainModule lateImport.source = some script ∧
    script.tree.kids.map (·.span) = [⟨0, 12⟩, ⟨13, 29⟩] ∧
    InPlace lateImportGraph "index.js" lateImport.source.toList 0 0 script.tree.kids lateImport.source.toList made ∧
    dropEnd isWhiteSpace made = "const a = 1;\n__require(1);".toList := by
  have hanalyzed : (analyze lateImport.source "index.js").toOption = some lateImport.analysis := by decide +kernel
  obtain ⟨script, hscript, hall⟩ := inPlace_moduleText (eq_ok_of_toOption hanalyzed)
  have hspans : (parse .plainModule lateImport.source).map (·.tree.kids.map (·.span)) = some [⟨0, 12⟩, ⟨13, 29⟩] := by
    decide +kernel
  rw [hscript, Option.map_some, Option.some.injEq] at hspans
  obtain ⟨made, hmade, htext⟩ := hall lateImportGraph 0 [] rfl
  refine ⟨script, made, hscript, hspans, hmade, ?_⟩
  have hmodule : lateImportGraph.get? 0 = some lateImport := rfl
  simp only [ModuleGraph.moduleText, hmodule, apply_lateImport] at htext
  have hchars := congrArg String.toList htext
  simp only [String.toList_append, List.append_assoc, String.toList_ofList] at hchars
  -- the same stands in front and behind
  iterate 6 replace hchars := List.append_cancel_left hchars
  rw [← List.append_cancel_right hchars]
  decide +kernel

/-- The import is linked behind the statement that stands in front of it, and not first. -/
theorem not_first_lateImport :
    (∀ m ∈ lateImportGraph.modules, analyze m.source m.id = .ok m.analysis) ∧
    (lateImportGraph.moduleText [] 0).1 =
      lateHead ++ "const a = 1;\n" ++ importText (requireText 1) [] ++ "\n\x7d;\n" ∧
    ∀ rest, (lateImportGraph.moduleText [] 0).1 ≠ lateHead ++ importText (requireText 1) [] ++ rest := by
  have hanalyzed : ∀ m ∈ lateImportGraph.modules, (analyze m.source m.id).toOption = some m.analysis := by
    decide +kernel
  have hmodule : lateImportGraph.get? 0 = some lateImport := rfl
  have htext : (lateImportGraph.moduleText [] 0).1 =
      lateHead ++ "const a = 1;\n" ++ importText (requireText 1) [] ++ "\n\x7d;\n" := by
    simp only [ModuleGraph.moduleText, hmodule, apply_lateImport]
    decide +kernel
  refine ⟨fun m hm => eq_ok_of_toOption (hanalyzed m hm), htext, fun rest hrest => ?_⟩
  have hchars := congrArg String.toList (htext.symm.trans hrest)
  simp only [String.toList_append, List.append_assoc] at hchars
  have hfirst := congrArg List.head? (List.append_cancel_left hchars)
  have hlinking : (importText (requireText 1) []).toList = "__require(1);".toList := by decide +kernel
  have hstatement (more : List Char) : ("const a = 1;\n".toList ++ more).head? = some 'c' := rfl
  have hlink (more : List Char) : ("__require(1);".toList ++ more).head? = some '_' := rfl
  rw [hlinking, hstatement, hlink] at hfirst
  exact absurd hfirst (by decide)

end LiveNotes.Bundle
