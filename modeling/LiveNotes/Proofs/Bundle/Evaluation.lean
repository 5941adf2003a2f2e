import LiveNotes.Proofs.Bundle.Exports

/-! What the modules of a chunk hold while it runs. A wrapper defines its getters when it starts and then goes
through its statements; a star export copies the names that its source holds at that moment, and the source
may be a module that is still running. -/

namespace LiveNotes.Bundle

open Relation

/-- Where a star export copies names from. -/
inductive Source where
  | inner (index : Nat)
  | outer (specifier : String)
  deriving DecidableEq, Repr

inductive RunEvent where
  /-- The wrapper of a module is called, for the first time. -/
  | start (index : Nat)
  /-- The names of `source` are copied to the exports of a module. -/
  | copy (index : Nat) (source : Source)
  deriving DecidableEq, Repr

/-- The names of the getters that a wrapper defines. A property `__proto__` in the literal that holds them
sets its prototype instead. -/
def Module.getterNames (m : Module) : List String := m.names.filter (· != "__proto__")

/-- The items of a module in the order of its text. -/
def Module.statements (m : Module) : List LinkItem :=
  m.analysis.items.mergeSort fun a b =>
    a.span.start < b.span.start || (a.span.start == b.span.start && a.span.stop ≤ b.span.stop)

inductive RunTask where
  /-- `__require` is called. -/
  | require (index : Nat)
  /-- A module has some of its statements left. -/
  | body (index : Nat) (m : Module) (items : List LinkItem)

namespace ModuleGraph

/-- The module that the statement for an item asks for at once. -/
def required? (g : ModuleGraph) (importer : String) (item : LinkItem) : Option Nat :=
  if item.kind.isDynamic then none else item.kind.specifier?.bind (g.resolve? importer)

/-- What the statement for an item copies to the exports of the module `i`. -/
def copied? (g : ModuleGraph) (i : Nat) (importer : String) (item : LinkItem) : Option RunEvent :=
  item.kind.star?.map fun specifier =>
    .copy i (((g.resolve? importer specifier).map Source.inner).getD (.outer specifier))

/-- A run, which adds its events in front of those before. -/
inductive Runs (g : ModuleGraph) : RunTask → List RunEvent → List RunEvent → Prop
  | again {i : Nat} {log : List RunEvent} : .start i ∈ log → Runs g (.require i) log log
  | first {i : Nat} {m : Module} {log log' : List RunEvent} : .start i ∉ log → g.get? i = some m →
      Runs g (.body i m m.statements) (.start i :: log) log' → Runs g (.require i) log log'
  | done {i : Nat} {m : Module} {log : List RunEvent} : Runs g (.body i m []) log log
  | pass {i : Nat} {m : Module} {item : LinkItem} {items : List LinkItem} {log log' : List RunEvent} :
      g.required? m.id item = none →
      Runs g (.body i m items) ((g.copied? i m.id item).toList ++ log) log' →
      Runs g (.body i m (item :: items)) log log'
  | ask {i k : Nat} {m : Module} {item : LinkItem} {items : List LinkItem} {log log₁ log' : List RunEvent} :
      g.required? m.id item = some k → Runs g (.require k) log log₁ →
      Runs g (.body i m items) ((g.copied? i m.id item).toList ++ log₁) log' →
      Runs g (.body i m (item :: items)) log log'

variable {g : ModuleGraph} {page : String → List String} {log log' log₁ log₂ : List RunEvent} {task : RunTask}
  {i k : Nat} {n : String}

/-- The names that the exports of a module hold after some events, the last one first, where `page` gives the
names of the external modules. -/
def held (g : ModuleGraph) (page : String → List String) : List RunEvent → Nat → List String
  | [], _ => []
  | .start j :: log, i =>
    (if j = i then (g.get? j).elim [] Module.getterNames else []) ++ held g page log i
  | .copy j (.inner k) :: log, i =>
    (if j = i then (held g page log k).filter (· != "default") else []) ++ held g page log i
  | .copy j (.outer specifier) :: log, i =>
    (if j = i then (page specifier).filter (· != "default") else []) ++ held g page log i

/-! ### There is one run -/

theorem Runs.suffix (h : g.Runs task log log') : log <:+ log' := by
  induction h with
  | again => exact List.suffix_refl _
  | first _ _ _ ih => exact (List.suffix_cons _ _).trans ih
  | done => exact List.suffix_refl _
  | pass _ _ ih => exact (List.suffix_append _ _).trans ih
  | ask _ _ _ ih ih' => exact (ih.trans (List.suffix_append _ _)).trans ih'

theorem Runs.unique (h : g.Runs task log log₁) (h' : g.Runs task log log₂) : log₁ = log₂ := by
  induction h generalizing log₂ with
  | again hstarted =>
    cases h' with
    | again => rfl
    | first hnew => exact absurd hstarted hnew
  | first hnew hm _ ih =>
    cases h' with
    | again hstarted => exact absurd hstarted hnew
    | first _ hm' hbody =>
      obtain rfl := Option.some.inj (hm.symm.trans hm')
      exact ih hbody
  | done =>
    cases h' with
    | done => rfl
  | pass hnone _ ih =>
    cases h' with
    | pass _ hrest => exact ih hrest
    | ask hsome => exact absurd (hnone.symm.trans hsome) (by simp)
  | ask hsome _ _ ih ih' =>
    cases h' with
    | pass hnone => exact absurd (hnone.symm.trans hsome) (by simp)
    | ask hsome' hask hrest =>
      obtain rfl := Option.some.inj (hsome.symm.trans hsome')
      obtain rfl := ih hask
      exact ih' hrest

/-- The modules whose wrappers were called. -/
def started (log : List RunEvent) : List Nat :=
  log.filterMap fun event => match event with
    | .start i => some i
    | .copy _ _ => none

theorem mem_started : i ∈ started log ↔ .start i ∈ log := by
  rw [started, List.mem_filterMap]
  constructor
  · rintro ⟨event, hevent, hi⟩
    cases event with
    | start j => exact Option.some.inj hi ▸ hevent
    | copy j source => contradiction
  · exact fun h => ⟨_, h, rfl⟩

theorem started_subset (h : log <:+ log') : started log ⊆ started log' :=
  fun _ hi => mem_started.2 (h.subset (mem_started.1 hi))

theorem lt_size_of_required? {importer : String} {item : LinkItem} (h : g.required? importer item = some k) :
    k < g.size := by
  rw [required?] at h
  split at h
  · contradiction
  · obtain ⟨specifier, -, hk⟩ := Option.bind_eq_some_iff.1 h
    exact lt_size_of_resolve? hk

theorem exists_runs_body {m : Module} {left : Nat} (items : List LinkItem)
    (hrequire : ∀ log : List RunEvent, (unvisited g.size (started log)).length ≤ left → ∀ k < g.size,
      ∃ log', g.Runs (.require k) log log')
    (hleft : (unvisited g.size (started log)).length ≤ left) : ∃ log', g.Runs (.body i m items) log log' := by
  induction items generalizing log with
  | nil => exact ⟨log, Runs.done⟩
  | cons item items ih =>
    have hshorter : ∀ {log' : List RunEvent}, log <:+ log' →
        (unvisited g.size (started log')).length ≤ left := fun hsuffix =>
      Nat.le_trans (length_unvisited_le g.size (started_subset hsuffix)) hleft
    cases hk : g.required? m.id item with
    | none =>
      obtain ⟨log', hrest⟩ := ih (hshorter (List.suffix_append (g.copied? i m.id item).toList log))
      exact ⟨log', Runs.pass hk hrest⟩
    | some k =>
      obtain ⟨log₁, hask⟩ := hrequire log hleft k (lt_size_of_required? hk)
      have hsuffix := hask.suffix.trans (List.suffix_append (g.copied? i m.id item).toList log₁)
      obtain ⟨log', hrest⟩ := ih (hshorter hsuffix)
      exact ⟨log', Runs.ask hk hask hrest⟩

/-- Each call comes to its end: a module starts once, so there are ever fewer that may. -/
theorem exists_runs (log : List RunEvent) (hi : i < g.size) : ∃ log', g.Runs (.require i) log log' := by
  obtain ⟨left, hleft⟩ : ∃ left, (unvisited g.size (started log)).length ≤ left := ⟨_, Nat.le_refl _⟩
  induction left generalizing log i with
  | zero =>
    exact ⟨log, Runs.again (mem_started.1 (mem_of_length_unvisited hleft hi))⟩
  | succ left ih =>
    by_cases hstarted : i ∈ started log
    · exact ⟨log, Runs.again (mem_started.1 hstarted)⟩
    · obtain ⟨m, hm⟩ := exists_get? hi
      have hlt := length_unvisited_cons_lt hi hstarted
      have hfewer : (unvisited g.size (started (.start i :: log))).length ≤ left :=
        Nat.le_of_lt_succ (Nat.lt_of_lt_of_le hlt hleft)
      obtain ⟨log', hbody⟩ := exists_runs_body (i := i) (m := m) m.statements
        (fun log hleft k hk => ih log hk hleft) hfewer
      exact ⟨log', Runs.first (mt mem_started.2 hstarted) hm hbody⟩

/-! ### What is held -/

theorem mem_held_start {j : Nat} : n ∈ g.held page (.start j :: log) i ↔
    (j = i ∧ ∃ m, g.get? j = some m ∧ n ∈ m.getterNames) ∨ n ∈ g.held page log i := by
  rw [held, List.mem_append]
  refine or_congr_left ?_
  split
  · next hji =>
    cases hm : g.get? j with
    | none => simp
    | some m => simp [hji]
  · next hji => simp [hji]

theorem mem_held_inner {j : Nat} : n ∈ g.held page (.copy j (.inner k) :: log) i ↔
    (j = i ∧ n ∈ g.held page log k ∧ n ≠ "default") ∨ n ∈ g.held page log i := by
  rw [held, List.mem_append]
  refine or_congr_left ?_
  split
  · next hji => simp [hji]
  · next hji => simp [hji]

theorem mem_held_outer {j : Nat} {specifier : String} : n ∈ g.held page (.copy j (.outer specifier) :: log) i ↔
    (j = i ∧ n ∈ page specifier ∧ n ≠ "default") ∨ n ∈ g.held page log i := by
  rw [held, List.mem_append]
  refine or_congr_left ?_
  split
  · next hji => simp [hji]
  · next hji => simp [hji]

theorem held_cons (event : RunEvent) (h : n ∈ g.held page log i) : n ∈ g.held page (event :: log) i := by
  rcases event with j | ⟨j, k | specifier⟩
  · exact mem_held_start.2 (Or.inr h)
  · exact mem_held_inner.2 (Or.inr h)
  · exact mem_held_outer.2 (Or.inr h)

/-- Exports do not lose names. -/
theorem held_suffix (hlog : log <:+ log') (h : n ∈ g.held page log i) : n ∈ g.held page log' i := by
  obtain ⟨more, rfl⟩ := hlog
  induction more with
  | nil => exact h
  | cons event more ih => exact held_cons event ih

/-- A way of a name to the exports of the module `i`: it is copied along star exports from a module that has a
getter for it, or from an external module. -/
inductive Passes (g : ModuleGraph) (page : String → List String) (n : String) : Nat → List RunEvent → Prop
  | own {i : Nat} {m : Module} : g.get? i = some m → n ∈ m.getterNames → Passes g page n i [.start i]
  | inner {i k : Nat} {path : List RunEvent} : n ≠ "default" → Passes g page n k path →
      Passes g page n i (.copy i (.inner k) :: path)
  | outer {i : Nat} {specifier : String} : n ≠ "default" → n ∈ page specifier →
      Passes g page n i [.copy i (.outer specifier)]

/-- A name is held when the copies on one of its ways were made in their order: each one after the copies
that brought the name to its source. -/
theorem mem_held_iff : n ∈ g.held page log i ↔ ∃ path, g.Passes page n i path ∧ path.Sublist log := by
  constructor
  · intro h
    induction log generalizing i with
    | nil => exact absurd h List.not_mem_nil
    | cons event log ih =>
      have holder : n ∈ g.held page log i → ∃ path, g.Passes page n i path ∧ path.Sublist (event :: log) := by
        intro h
        obtain ⟨path, hpath, hsub⟩ := ih h
        exact ⟨path, hpath, hsub.cons event⟩
      rcases event with j | ⟨j, k | specifier⟩
      · rcases mem_held_start.1 h with ⟨rfl, m, hm, hn⟩ | h
        · exact ⟨_, Passes.own hm hn, (List.nil_sublist log).cons_cons _⟩
        · exact holder h
      · rcases mem_held_inner.1 h with ⟨rfl, hk, hn⟩ | h
        · obtain ⟨path, hpath, hsub⟩ := ih hk
          exact ⟨_, Passes.inner hn hpath, hsub.cons_cons _⟩
        · exact holder h
      · rcases mem_held_outer.1 h with ⟨rfl, hpage, hn⟩ | h
        · exact ⟨_, Passes.outer hn hpage, (List.nil_sublist log).cons_cons _⟩
        · exact holder h
  · rintro ⟨path, hpath, hsub⟩
    induction log generalizing i path with
    | nil =>
      rw [List.sublist_nil.1 hsub] at hpath
      contradiction
    | cons event log ih =>
      cases hsub with
      | cons _ hsub => exact held_cons event (ih path hpath hsub)
      | cons_cons _ hsub =>
        cases hpath with
        | own hm hn => exact mem_held_start.2 (Or.inl ⟨rfl, _, hm, hn⟩)
        | inner hn hpath => exact mem_held_inner.2 (Or.inl ⟨rfl, ih _ hpath hsub, hn⟩)
        | outer hn hpage => exact mem_held_outer.2 (Or.inl ⟨rfl, hpage, hn⟩)

end ModuleGraph

end LiveNotes.Bundle
