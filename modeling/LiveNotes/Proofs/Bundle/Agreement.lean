import LiveNotes.Proofs.Bundle.Evaluation

/-! The names that are collected for a chunk beside those that its entry holds once it has run. No others are
held but those of external modules. All of them are held when modules do not ask for each other in circles;
in a circle a star export may copy from a module before that has its names. -/

namespace LiveNotes.Bundle

open Relation

namespace ModuleGraph

variable {g : ModuleGraph} {page : String → List String} {log log' : List RunEvent} {task : RunTask}
  {importer : String} {item : LinkItem} {entry i k : Nat} {n : String}

/-- A run asks for the module whose exports the text of a static item names. -/
theorem required?_of_expression {target : String} (h : Expression g importer item target)
    (hstatic : item.kind.isDynamic = false) :
    (∃ k, g.required? importer item = some k ∧ target = requireText k) ∨
      g.required? importer item = none ∧ ((∃ number, target = externalName number) ∨ target = "") := by
  have hrequired : g.required? importer item = item.kind.specifier?.bind (g.resolve? importer) := by
    rw [required?, hstatic]
    rfl
  rw [hrequired]
  cases h with
  | inner hspecifier hk => exact Or.inl ⟨_, by rw [hspecifier]; exact hk, rfl⟩
  | outer number hspecifier hnone => exact Or.inr ⟨by rw [hspecifier]; exact hnone, Or.inl ⟨number, rfl⟩⟩
  | nothing hnothing => exact Or.inr ⟨by rw [hnothing]; rfl, Or.inr rfl⟩

theorem required?_of_star {specifier : String} (h : item.kind.star? = some specifier) :
    g.required? importer item = g.resolve? importer specifier := by
  obtain ⟨hkind, -⟩ := Collects.passed_of_star h
  rw [required?, hkind]
  rfl

/-! ### What is copied -/

theorem mem_copied? {event : RunEvent} (h : event ∈ g.copied? i importer item) :
    ∃ specifier, item.kind.star? = some specifier ∧
      ((∃ k, g.resolve? importer specifier = some k ∧ event = .copy i (.inner k)) ∨
        g.resolve? importer specifier = none ∧ event = .copy i (.outer specifier)) := by
  obtain ⟨specifier, hstar, rfl⟩ := Option.map_eq_some_iff.1 h
  refine ⟨specifier, hstar, ?_⟩
  cases hk : g.resolve? importer specifier with
  | some k => exact Or.inl ⟨k, rfl, rfl⟩
  | none => exact Or.inr ⟨rfl, rfl⟩

/-- What is copied belongs to a star export of the module. -/
def Belongs (g : ModuleGraph) : RunEvent → Prop
  | .start _ => True
  | .copy i (.inner k) => g.Stars i k
  | .copy i (.outer specifier) => g.StarsOuter i specifier

theorem belongs_copied? {m : Module} {event : RunEvent} (hm : g.get? i = some m)
    (hitem : item ∈ m.analysis.items) (h : event ∈ g.copied? i m.id item) : g.Belongs event := by
  obtain ⟨specifier, hstar, hevent⟩ := mem_copied? h
  have hmem : specifier ∈ m.analysis.items.filterMap (·.kind.star?) := List.mem_filterMap.2 ⟨item, hitem, hstar⟩
  obtain ⟨k, hk, rfl⟩ | ⟨hnone, rfl⟩ := hevent
  · exact ⟨m, hm, List.mem_filterMap.2 ⟨specifier, hmem, hk⟩⟩
  · exact ⟨m, hm, List.mem_filter.2 ⟨hmem, by rw [hnone]; rfl⟩⟩

theorem mem_statements {m : Module} : item ∈ m.statements ↔ item ∈ m.analysis.items := List.mem_mergeSort

/-- The statements that are left of a module are among its own. -/
def RunTask.Of (g : ModuleGraph) : RunTask → Prop
  | .require _ => True
  | .body i m items => g.get? i = some m ∧ items ⊆ m.analysis.items

theorem Runs.belongs (h : g.Runs task log log') (htask : RunTask.Of g task)
    (hlog : ∀ event ∈ log, g.Belongs event) : ∀ event ∈ log', g.Belongs event := by
  have hmore : ∀ {i : Nat} {m : Module} {item : LinkItem} {items : List LinkItem} {log : List RunEvent},
      RunTask.Of g (.body i m (item :: items)) → (∀ event ∈ log, g.Belongs event) →
      RunTask.Of g (.body i m items) ∧ ∀ event ∈ (g.copied? i m.id item).toList ++ log, g.Belongs event := by
    intro i m item items log htask hlog
    obtain ⟨hm, hitems⟩ := htask
    obtain ⟨hitem, hitems⟩ := List.cons_subset.1 hitems
    refine ⟨⟨hm, hitems⟩, fun event hevent => ?_⟩
    rcases List.mem_append.1 hevent with hevent | hevent
    · exact belongs_copied? hm hitem (Option.mem_toList.1 hevent)
    · exact hlog event hevent
  induction h with
  | again => exact hlog
  | first _ hm _ ih =>
    refine ih ⟨hm, fun _ hitem => mem_statements.1 hitem⟩ fun event hevent => ?_
    rcases List.mem_cons.1 hevent with rfl | hevent
    · exact trivial
    · exact hlog event hevent
  | done => exact hlog
  | pass _ _ ih =>
    obtain ⟨hrest, hevents⟩ := hmore htask hlog
    exact ih hrest hevents
  | ask _ _ _ ih ih' =>
    obtain ⟨hrest, hevents⟩ := hmore htask (ih trivial hlog)
    exact ih' hrest hevents

/-- A name that gets somewhere by copies has its origin where star exports lead to. -/
theorem Passes.origin {path : List RunEvent} (h : g.Passes page n i path)
    (hpath : ∀ event ∈ path, g.Belongs event) :
    (∃ j, ReflTransGen g.Stars i j ∧ g.Exposes (j == i) j n) ∨
      ∃ j specifier, ReflTransGen g.Stars i j ∧ g.StarsOuter j specifier ∧ n ∈ page specifier := by
  induction h with
  | @own i m hm hn =>
    refine Or.inl ⟨i, ReflTransGen.refl, m, hm, ?_⟩
    have hnames : n ∈ m.names := (List.mem_filter.1 hn).1
    simpa [exposed] using hnames
  | @inner i k path hn _ ih =>
    have hstars : g.Stars i k := hpath _ List.mem_cons_self
    rcases ih fun event hevent => hpath event (List.mem_cons_of_mem _ hevent) with
      ⟨j, hreach, m, hm, hmem⟩ | ⟨j, specifier, hreach, houter, hpage⟩
    · refine Or.inl ⟨j, ReflTransGen.head hstars hreach, m, hm, ?_⟩
      exact List.mem_filter.2 ⟨(List.mem_filter.1 hmem).1, by simp [hn]⟩
    · exact Or.inr ⟨j, specifier, ReflTransGen.head hstars hreach, houter, hpage⟩
  | @outer i specifier hn hpage =>
    exact Or.inr ⟨i, specifier, ReflTransGen.refl, hpath _ List.mem_cons_self, hpage⟩

theorem exported_of_held (hrun : g.Runs (.require entry) [] log) (h : n ∈ g.held page log entry) :
    n ∈ (g.exportedBy entry).names ∨
      ∃ j specifier, ReflTransGen g.Stars entry j ∧ g.StarsOuter j specifier ∧ n ∈ page specifier := by
  have hlog := hrun.belongs trivial fun _ h => absurd h List.not_mem_nil
  obtain ⟨path, hpath, hsub⟩ := mem_held_iff.1 h
  exact (hpath.origin fun event hevent => hlog event (hsub.subset hevent)).imp_left mem_exportedBy.2

/-! ### Without circles -/

/-- When a module runs, it asks for another one. -/
def Requires (g : ModuleGraph) (i k : Nat) : Prop :=
  ∃ m, g.get? i = some m ∧ ∃ item ∈ m.analysis.items, g.required? m.id item = some k

/-- A name that a module has to offer to those who export all its names. -/
def Offers (g : ModuleGraph) (i : Nat) (n : String) : Prop :=
  n ≠ "default" ∧ ∃ j m, ReflTransGen g.Stars i j ∧ g.get? j = some m ∧ n ∈ m.getterNames

/-- A module that has all names it is going to have. -/
def Settled (g : ModuleGraph) (page : String → List String) (log : List RunEvent) (i : Nat) : Prop :=
  ∀ n, g.Offers i n → n ∈ g.held page log i

theorem Settled.suffix (h : g.Settled page log i) (hlog : log <:+ log') : g.Settled page log' i :=
  fun n hn => held_suffix hlog (h n hn)

/-- Where a task stands: the modules in `waits` have started but not settled, and they ask for what is to be
done now. -/
def Ready (g : ModuleGraph) (entry : Nat) (waits : Nat → Prop) : RunTask → Prop
  | .require i => ReflTransGen g.Requires entry i ∧ ∀ j, waits j → TransGen g.Requires j i
  | .body i m items => ReflTransGen g.Requires entry i ∧ RunTask.Of g (.body i m items) ∧ waits i ∧
      ∀ j, waits j → ReflTransGen g.Requires j i

/-- What a task leaves behind: a module that was asked for is settled, and what a module copied from others is
all that they have. -/
def Leaves (g : ModuleGraph) (page : String → List String) (log : List RunEvent) : RunTask → Prop
  | .require i => g.Settled page log i
  | .body i m items => ∀ item ∈ items, ∀ specifier, item.kind.star? = some specifier →
      ∀ k, g.resolve? m.id specifier = some k → ∀ n, g.Offers k n → n ∈ g.held page log i

theorem Settled.of_body {m : Module} (hm : g.get? i = some m) (hstart : .start i ∈ log)
    (h : g.Leaves page log (.body i m m.statements)) : g.Settled page log i := by
  rintro n ⟨hn, j, m', hreach, hm', hmem⟩
  rcases hreach.cases_head with rfl | ⟨k, ⟨m'', hm'', hk⟩, hrest⟩
  · obtain ⟨newer, older, rfl⟩ := List.append_of_mem hstart
    exact held_suffix (List.suffix_append newer _) (mem_held_start.2 (Or.inl ⟨rfl, m', hm', hmem⟩))
  · obtain rfl := Option.some.inj (hm.symm.trans hm'')
    obtain ⟨specifier, hspecifier, hk⟩ := List.mem_filterMap.1 hk
    obtain ⟨item, hitem, hstar⟩ := List.mem_filterMap.1 hspecifier
    exact h item (mem_statements.2 hitem) specifier hstar k hk n ⟨hn, j, m', hrest, hm', hmem⟩

theorem started_copied? (i : Nat) (importer : String) (item : LinkItem) (log : List RunEvent) :
    started ((g.copied? i importer item).toList ++ log) = started log := by
  rw [copied?]
  cases item.kind.star? with
  | none => rfl
  | some specifier => rfl

/-- Without circles no module that is asked for is still running, so that a star export gets all names. -/
theorem Runs.leaves (page : String → List String)
    (hacyclic : ∀ i, ReflTransGen g.Requires entry i → ¬ TransGen g.Requires i i)
    (h : g.Runs task log log') {waits : Nat → Prop} (hready : g.Ready entry waits task)
    (hlog : ∀ j ∈ started log, g.Settled page log j ∨ waits j) :
    (∀ j ∈ started log', g.Settled page log' j ∨ waits j) ∧ g.Leaves page log' task := by
  induction h generalizing waits with
  | @again i log hstarted =>
    refine ⟨hlog, (hlog i (mem_started.2 hstarted)).resolve_right fun hi => ?_⟩
    exact hacyclic i hready.1 (hready.2 i hi)
  | @first i m log log' _ hm hbody ih =>
    obtain ⟨hreach, hwaits⟩ := hready
    have hready' : g.Ready entry (fun j => waits j ∨ j = i) (.body i m m.statements) := by
      refine ⟨hreach, ⟨hm, fun _ hitem => mem_statements.1 hitem⟩, Or.inr rfl, ?_⟩
      rintro j (hj | rfl)
      · exact (hwaits j hj).to_reflTransGen
      · exact ReflTransGen.refl
    have hlog' : ∀ j ∈ started (.start i :: log),
        g.Settled page (.start i :: log) j ∨ waits j ∨ j = i := by
      intro j hj
      rcases List.mem_cons.1 hj with rfl | hj
      · exact Or.inr (Or.inr rfl)
      · exact (hlog j hj).imp (Settled.suffix · (List.suffix_cons _ _)) Or.inl
    obtain ⟨hstarted, hleaves⟩ := ih hready' hlog'
    have hsettled := Settled.of_body hm (hbody.suffix.subset List.mem_cons_self) hleaves
    refine ⟨fun j hj => ?_, hsettled⟩
    rcases hstarted j hj with hj | hj | rfl
    · exact Or.inl hj
    · exact Or.inr hj
    · exact Or.inl hsettled
  | done => exact ⟨hlog, fun _ h => absurd h List.not_mem_nil⟩
  | @pass i m item items log log' hnone hrest ih =>
    obtain ⟨hreach, ⟨hm, hitems⟩, hi, hwaits⟩ := hready
    obtain ⟨-, hmore⟩ := List.cons_subset.1 hitems
    have hlog' : ∀ j ∈ started ((g.copied? i m.id item).toList ++ log),
        g.Settled page ((g.copied? i m.id item).toList ++ log) j ∨ waits j := by
      rw [started_copied?]
      exact fun j hj => (hlog j hj).imp_left (Settled.suffix · (List.suffix_append _ _))
    obtain ⟨hstarted, hleaves⟩ := ih ⟨hreach, ⟨hm, hmore⟩, hi, hwaits⟩ hlog'
    refine ⟨hstarted, fun item' hitem' => ?_⟩
    rcases List.mem_cons.1 hitem' with rfl | hitem'
    · intro specifier hstar k hk
      rw [required?_of_star hstar, hk] at hnone
      contradiction
    · exact hleaves item' hitem'
  | @ask i k m item items log log₁ log' hk hask hrest ih ih' =>
    obtain ⟨hreach, ⟨hm, hitems⟩, hi, hwaits⟩ := hready
    obtain ⟨hitem, hmore⟩ := List.cons_subset.1 hitems
    have hrequires : g.Requires i k := ⟨m, hm, item, hitem, hk⟩
    have hready₁ : g.Ready entry waits (.require k) :=
      ⟨hreach.tail hrequires, fun j hj => TransGen.tail' (hwaits j hj) hrequires⟩
    obtain ⟨hstarted₁, hsettled⟩ := ih hready₁ hlog
    have hlog' : ∀ j ∈ started ((g.copied? i m.id item).toList ++ log₁),
        g.Settled page ((g.copied? i m.id item).toList ++ log₁) j ∨ waits j := by
      rw [started_copied?]
      exact fun j hj => (hstarted₁ j hj).imp_left (Settled.suffix · (List.suffix_append _ _))
    obtain ⟨hstarted, hleaves⟩ := ih' ⟨hreach, ⟨hm, hmore⟩, hi, hwaits⟩ hlog'
    refine ⟨hstarted, fun item' hitem' => ?_⟩
    rcases List.mem_cons.1 hitem' with rfl | hitem'
    · intro specifier hstar k' hk' n hn
      obtain rfl : k = k' := Option.some.inj (hk.symm.trans ((required?_of_star hstar).trans hk'))
      have hcopied : g.copied? i m.id item' = some (.copy i (.inner k)) := by
        rw [copied?, hstar, Option.map_some, hk']
        rfl
      have hheld : n ∈ g.held page ((g.copied? i m.id item').toList ++ log₁) i := by
        rw [hcopied]
        exact mem_held_inner.2 (Or.inl ⟨rfl, hsettled n hn, hn.1⟩)
      exact held_suffix hrest.suffix hheld
    · exact hleaves item' hitem'

/-- Where the modules that the entry asks for do not ask for each other in a circle, it holds all names that
are collected for it. -/
theorem held_of_acyclic (hacyclic : ∀ i, ReflTransGen g.Requires entry i → ¬ TransGen g.Requires i i)
    (hrun : g.Runs (.require entry) [] log) (hn : n ∈ (g.exportedBy entry).names) (hproto : n ≠ "__proto__") :
    n ∈ g.held page log entry := by
  have hready : g.Ready entry (fun _ => False) (.require entry) :=
    ⟨ReflTransGen.refl, fun _ h => absurd h id⟩
  obtain ⟨-, hsettled⟩ := hrun.leaves page hacyclic hready fun _ h => absurd h List.not_mem_nil
  obtain ⟨i, hreach, m, hm, hmem⟩ := mem_exportedBy.1 hn
  obtain ⟨hname, hexposed⟩ := List.mem_filter.1 hmem
  have hgetter : n ∈ m.getterNames := List.mem_filter.2 ⟨hname, by simpa using hproto⟩
  by_cases hdefault : n = "default"
  · obtain rfl : i = entry := by simpa [hdefault] using hexposed
    cases hrun with
    | again h => exact absurd h List.not_mem_nil
    | first _ hm' hbody =>
      exact held_suffix hbody.suffix (mem_held_start.2 (Or.inl ⟨rfl, m, hm, hgetter⟩))
  · exact hsettled n ⟨hdefault, i, m, hreach, hm, hgetter⟩

/-- A chunk runs in one way. Its entry then holds no names but those collected for it and those of external
modules; it holds all that are collected exactly when each of them has a way to it whose copies were made in
their order, and without circles it does. -/
theorem names_held_iff (page : String → List String) (hentry : entry < g.size) :
    ∃ log, (∀ log', g.Runs (.require entry) [] log' ↔ log' = log) ∧
      (∀ n ∈ g.held page log entry, n ∈ (g.exportedBy entry).names ∨
        ∃ j specifier, ReflTransGen g.Stars entry j ∧ g.StarsOuter j specifier ∧ n ∈ page specifier) ∧
      ((∀ n ∈ (g.exportedBy entry).names, n ∈ g.held page log entry) ↔
        ∀ n ∈ (g.exportedBy entry).names, ∃ path, g.Passes page n entry path ∧ path.Sublist log) ∧
      ((∀ i, ReflTransGen g.Requires entry i → ¬ TransGen g.Requires i i) →
        ∀ n ∈ (g.exportedBy entry).names, n ≠ "__proto__" → n ∈ g.held page log entry) := by
  obtain ⟨log, hrun⟩ := exists_runs [] hentry
  refine ⟨log, fun log' => ⟨fun h => h.unique hrun, fun h => h ▸ hrun⟩, ?_, ?_, ?_⟩
  · exact fun n hn => exported_of_held hrun hn
  · exact forall₂_congr fun n _ => mem_held_iff
  · exact fun hacyclic n hn hproto => held_of_acyclic hacyclic hrun hn hproto

/-- `t.js` copies the names of `u.js` while that one still waits for it. -/
def copiedEarly : ModuleGraph where
  modules :=
    [⟨"index.js", "import './u.js';\nexport * from './t.js';",
        [⟨"./u.js", false, []⟩, ⟨"./t.js", false, [⟨"*", "*"⟩]⟩],
        [⟨⟨0, 16⟩, .importNames "./u.js" []⟩, ⟨⟨17, 40⟩, .exportStar "./t.js" none⟩], []⟩,
      ⟨"u.js", "import './t.js';\nexport * from './v.js';",
        [⟨"./t.js", false, []⟩, ⟨"./v.js", false, [⟨"*", "*"⟩]⟩],
        [⟨⟨0, 16⟩, .importNames "./t.js" []⟩, ⟨⟨17, 40⟩, .exportStar "./v.js" none⟩], []⟩,
      ⟨"t.js", "export * from './u.js';", [⟨"./u.js", false, [⟨"*", "*"⟩]⟩],
        [⟨⟨0, 23⟩, .exportStar "./u.js" none⟩], []⟩,
      ⟨"v.js", "export const v = 1;", [], [⟨⟨0, 7⟩, .remove⟩], [("v", "v")]⟩]
  edges := [⟨"index.js", "./u.js", "u.js", false⟩, ⟨"index.js", "./t.js", "t.js", false⟩,
    ⟨"u.js", "./t.js", "t.js", false⟩, ⟨"u.js", "./v.js", "v.js", false⟩, ⟨"t.js", "./u.js", "u.js", false⟩]


theorem statements_copiedEarly : ∀ m ∈ copiedEarly.modules, m.statements = m.analysis.items := by
  intro m hm
  refine List.mergeSort_of_pairwise ?_
  revert m
  decide +kernel

theorem runs_copiedEarly : copiedEarly.Runs (.require 0) []
    [.copy 0 (.inner 2), .copy 1 (.inner 3), .start 3, .copy 2 (.inner 1), .start 2, .start 1, .start 0] := by
  have hfirst : ∀ i m log log', copiedEarly.get? i = some m → .start i ∉ log →
      copiedEarly.Runs (.body i m m.analysis.items) (.start i :: log) log' →
      copiedEarly.Runs (.require i) log log' := by
    intro i m log log' hm hnew hbody
    refine Runs.first hnew hm ?_
    rwa [statements_copiedEarly m (List.mem_of_getElem? hm)]
  have hask : ∀ i k m item items more log log₁ log', copiedEarly.required? m.id item = some k →
      (copiedEarly.copied? i m.id item).toList = more → copiedEarly.Runs (.require k) log log₁ →
      copiedEarly.Runs (.body i m items) (more ++ log₁) log' →
      copiedEarly.Runs (.body i m (item :: items)) log log' := by
    rintro i k m item items more log log₁ log' hk rfl hrequire hrest
    exact Runs.ask hk hrequire hrest
  refine hfirst 0 _ _ _ rfl (by decide) ?_
  refine hask 0 1 _ _ _ [] _ [.copy 1 (.inner 3), .start 3, .copy 2 (.inner 1), .start 2, .start 1, .start 0] _
    (by decide +kernel) (by decide +kernel) ?_ ?_
  · refine hfirst 1 _ _ _ rfl (by decide) ?_
    refine hask 1 2 _ _ _ [] _ [.copy 2 (.inner 1), .start 2, .start 1, .start 0] _
      (by decide +kernel) (by decide +kernel) ?_ ?_
    · refine hfirst 2 _ _ _ rfl (by decide) ?_
      refine hask 2 1 _ _ _ [.copy 2 (.inner 1)] _ _ _ (by decide +kernel) (by decide +kernel) ?_ Runs.done
      exact Runs.again (by decide)
    · refine hask 1 3 _ _ _ [.copy 1 (.inner 3)] _ [.start 3, .copy 2 (.inner 1), .start 2, .start 1, .start 0] _
        (by decide +kernel) (by decide +kernel) ?_ Runs.done
      refine hfirst 3 _ _ _ rfl (by decide) ?_
      exact Runs.pass (by decide +kernel) Runs.done
  · refine hask 0 2 _ _ _ [.copy 0 (.inner 2)] _ _ _ (by decide +kernel) (by decide +kernel) ?_ Runs.done
    exact Runs.again (by decide)

theorem not_held_copiedEarly :
    (∀ m ∈ copiedEarly.modules, (analyze m.source m.id).toOption = some m.analysis) ∧
      ∃ log, copiedEarly.Runs (.require 0) [] log ∧
        ¬ ∀ n ∈ (copiedEarly.exportedBy 0).names, n ∈ copiedEarly.held (fun _ => []) log 0 := by
  refine ⟨by decide +kernel, _, runs_copiedEarly, fun h => ?_⟩
  have hcollected : "v" ∈ (copiedEarly.exportedBy 0).names := by decide +kernel
  have hheld := h "v" hcollected
  revert hheld
  decide +kernel

theorem names_held_iff_copiedEarly :
    0 < copiedEarly.size ∧ ∃ log, (∀ log', copiedEarly.Runs (.require 0) [] log' ↔ log' = log) ∧
      ((∀ n ∈ (copiedEarly.exportedBy 0).names, n ∈ copiedEarly.held (fun _ => []) log 0) ↔
        ∀ n ∈ (copiedEarly.exportedBy 0).names,
          ∃ path, copiedEarly.Passes (fun _ => []) n 0 path ∧ path.Sublist log) := by
  have hentry : 0 < copiedEarly.size := by decide
  obtain ⟨log, hrun, -, hiff, -⟩ := names_held_iff (fun _ => []) hentry
  exact ⟨hentry, log, hrun, hiff⟩

end ModuleGraph

end LiveNotes.Bundle
