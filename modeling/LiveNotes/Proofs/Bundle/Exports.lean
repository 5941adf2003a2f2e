import LiveNotes.Proofs.Bundle.Link
import LiveNotes.Proofs.Bundle.Reach

/-! What a chunk exports. The names are those of the entry and of all modules that star exports lead to from
it, each once. Of the external modules that star exports lead to, only those of the entry itself are kept. -/

namespace LiveNotes.Bundle

open Relation

/-- What an item exports all names of. -/
def LinkKind.star? : LinkKind → Option String
  | .exportStar specifier none => some specifier
  | _ => none

/-- The names that others see: `default` is for the entry alone. -/
def exposed (isEntry : Bool) (names : List String) : List String :=
  names.filter fun name => isEntry || name != "default"

namespace ModuleGraph

/-- The modules whose names are exported by items of the module `importer`. -/
def starTargets (g : ModuleGraph) (importer : String) (items : List LinkItem) : List Nat :=
  (items.filterMap (·.kind.star?)).filterMap (g.resolve? importer)

/-- The external modules whose names are exported by items of the module `importer`. -/
def starOuters (g : ModuleGraph) (importer : String) (items : List LinkItem) : List String :=
  (items.filterMap (·.kind.star?)).filter fun specifier => (g.resolve? importer specifier).isNone

/-- A module exports the names of another one. -/
def Stars (g : ModuleGraph) (i k : Nat) : Prop :=
  ∃ m, g.get? i = some m ∧ k ∈ g.starTargets m.id m.analysis.items

/-- A module exports the names of an external one. -/
def StarsOuter (g : ModuleGraph) (i : Nat) (specifier : String) : Prop :=
  ∃ m, g.get? i = some m ∧ specifier ∈ g.starOuters m.id m.analysis.items

/-- A module has a name that others see. -/
def Exposes (g : ModuleGraph) (isEntry : Bool) (i : Nat) (name : String) : Prop :=
  ∃ m, g.get? i = some m ∧ name ∈ exposed isEntry m.names

end ModuleGraph

/-- A part of the collection finds the names in `own`, goes on with the modules `targets` and what they lead
to, and keeps the external modules `outers`. -/
structure Collects (g : ModuleGraph) (own : List String) (targets : List Nat) (outers : List String)
    (e e' : ExportedNames) : Prop where
  visited : e.visited ⊆ e'.visited
  follows : ∀ k ∈ targets, k ∈ e'.visited
  reached : ∀ i ∈ e'.visited, i ∈ e.visited ∨ ∃ k ∈ targets, ReflTransGen g.Stars k i
  closed : ∀ i ∈ e'.visited, i ∉ e.visited → ∀ k, g.Stars i k → k ∈ e'.visited
  names : ∀ n, n ∈ e'.names ↔ n ∈ e.names ∨ n ∈ own ∨ ∃ i ∈ e'.visited, i ∉ e.visited ∧ g.Exposes false i n
  nodup : e.names.Nodup → e'.names.Nodup
  stars : e'.stars = e.stars ++ outers

namespace Collects

variable {g : ModuleGraph} {e e₁ e₂ : ExportedNames} {own own₁ own₂ outers outers₁ outers₂ : List String}
  {targets₁ targets₂ : List Nat} {isEntry : Bool}

theorem refl (g : ModuleGraph) (e : ExportedNames) : Collects g [] [] [] e e := by
  refine ⟨List.Subset.refl _, ?_, fun i hi => Or.inl hi, fun i hi hnew => absurd hi hnew, ?_, id, ?_⟩
  · exact fun _ h => absurd h List.not_mem_nil
  · intro n
    refine ⟨Or.inl, fun h => ?_⟩
    rcases h with h | h | ⟨i, hi, hnew, -⟩
    · exact h
    · exact absurd h List.not_mem_nil
    · exact absurd hi hnew
  · exact (List.append_nil _).symm

theorem trans (h₁ : Collects g own₁ targets₁ outers₁ e e₁) (h₂ : Collects g own₂ targets₂ outers₂ e₁ e₂) :
    Collects g (own₁ ++ own₂) (targets₁ ++ targets₂) (outers₁ ++ outers₂) e e₂ := by
  refine ⟨List.Subset.trans h₁.visited h₂.visited, ?_, ?_, ?_, ?_, h₂.nodup ∘ h₁.nodup, ?_⟩
  · intro k hk
    rcases List.mem_append.1 hk with hk | hk
    · exact h₂.visited (h₁.follows k hk)
    · exact h₂.follows k hk
  · intro i hi
    rcases h₂.reached i hi with hi | ⟨k, hk, hreach⟩
    · rcases h₁.reached i hi with hi | ⟨k, hk, hreach⟩
      · exact Or.inl hi
      · exact Or.inr ⟨k, List.mem_append_left _ hk, hreach⟩
    · exact Or.inr ⟨k, List.mem_append_right _ hk, hreach⟩
  · intro i hi hnew k hk
    by_cases hi₁ : i ∈ e₁.visited
    · exact h₂.visited (h₁.closed i hi₁ hnew k hk)
    · exact h₂.closed i hi hi₁ k hk
  · intro n
    rw [h₂.names, h₁.names, List.mem_append]
    constructor
    · rintro ((h | h | ⟨i, hi, hnew, h⟩) | h | ⟨i, hi, hnew, h⟩)
      · exact Or.inl h
      · exact Or.inr (Or.inl (Or.inl h))
      · exact Or.inr (Or.inr ⟨i, h₂.visited hi, hnew, h⟩)
      · exact Or.inr (Or.inl (Or.inr h))
      · exact Or.inr (Or.inr ⟨i, hi, fun hold => hnew (h₁.visited hold), h⟩)
    · rintro (h | (h | h) | ⟨i, hi, hnew, h⟩)
      · exact Or.inl (Or.inl h)
      · exact Or.inl (Or.inr (Or.inl h))
      · exact Or.inr (Or.inl h)
      · by_cases hi₁ : i ∈ e₁.visited
        · exact Or.inl (Or.inr (Or.inr ⟨i, hi₁, hnew, h⟩))
        · exact Or.inr (Or.inr ⟨i, hi, hi₁, h⟩)
  · rw [h₂.stars, h₁.stars, List.append_assoc]

theorem exposed_cons (isEntry : Bool) (name : String) (names : List String) :
    exposed isEntry (name :: names) = exposed isEntry [name] ++ exposed isEntry names :=
  List.filter_append [name] names

theorem add (g : ModuleGraph) (isEntry : Bool) (e : ExportedNames) (name : String) :
    Collects g (exposed isEntry [name]) [] [] e (e.add isEntry name) := by
  have hsame := refl g e
  by_cases hseen : isEntry || name != "default"
  · have hown : exposed isEntry [name] = [name] := List.filter_cons_of_pos hseen
    by_cases hmem : name ∈ e.names
    · have heq : e.add isEntry name = e := if_neg (by simp [hmem])
      rw [heq, hown]
      refine ⟨hsame.visited, hsame.follows, hsame.reached, hsame.closed, fun n => ?_, id, hsame.stars⟩
      rw [List.mem_singleton]
      refine ⟨Or.inl, fun h => ?_⟩
      rcases h with h | rfl | ⟨i, hi, hnew, -⟩
      · exact h
      · exact hmem
      · exact absurd hi hnew
    · have heq : e.add isEntry name = { e with names := e.names ++ [name] } :=
        if_pos (by simpa [hmem] using hseen)
      rw [heq, hown]
      refine ⟨hsame.visited, hsame.follows, hsame.reached, hsame.closed, fun n => ?_, fun h => ?_, hsame.stars⟩
      · rw [List.mem_append]
        refine ⟨fun h => h.imp_right Or.inl, fun h => ?_⟩
        rcases h with h | h | ⟨i, hi, hnew, -⟩
        · exact Or.inl h
        · exact Or.inr h
        · exact absurd hi hnew
      · exact List.concat_eq_append ▸ h.concat hmem
  · have hown : exposed isEntry [name] = [] := List.filter_cons_of_neg hseen
    have heq : e.add isEntry name = e := if_neg (by simp [hseen])
    rw [heq, hown]
    exact hsame

theorem addAll (g : ModuleGraph) (isEntry : Bool) (names : List String) (e : ExportedNames) :
    Collects g (exposed isEntry names) [] [] e (names.foldl (ExportedNames.add isEntry) e) := by
  induction names generalizing e with
  | nil => exact refl g e
  | cons name names ih =>
    rw [exposed_cons]
    exact (add g isEntry e name).trans (ih _)

theorem passed_of_star {kind : LinkKind} {specifier : String} (h : kind.star? = some specifier) :
    kind = .exportStar specifier none ∧ kind.passed = [] := by
  cases kind with
  | exportStar s asName =>
    cases asName with
    | none => exact ⟨by rw [Option.some.inj h], rfl⟩
    | some name => contradiction
  | _ => contradiction

theorem collectItem_of_not_star {importer : String} {collect : ExportedNames → Nat → ExportedNames}
    {item : LinkItem} (h : item.kind.star? = none) : g.collectItem isEntry importer collect e item =
      item.kind.passed.foldl (ExportedNames.add isEntry) e := by
  obtain ⟨span, kind⟩ := item
  cases kind with
  | exportStar specifier asName =>
    cases asName with
    | none => contradiction
    | some name => rfl
  | _ => rfl

/-- An item, where the collection can go on with each module from what was visited so far. -/
theorem item (isEntry : Bool) (importer : String) {collect : ExportedNames → Nat → ExportedNames} {visited : List Nat}
    (hcollect : ∀ e, visited ⊆ e.visited → ∀ k < g.size, Collects g [] [k] [] e (collect e k))
    (he : visited ⊆ e.visited) (item : LinkItem) :
    Collects g (exposed isEntry item.kind.passed) (g.starTargets importer [item])
      (if isEntry then g.starOuters importer [item] else []) e
      (g.collectItem isEntry importer collect e item) := by
  cases hstar : item.kind.star? with
  | none =>
    have htargets : g.starTargets importer [item] = [] := by simp [ModuleGraph.starTargets, hstar]
    have houters : g.starOuters importer [item] = [] := by simp [ModuleGraph.starOuters, hstar]
    rw [collectItem_of_not_star hstar, htargets, houters, ite_self]
    exact addAll g isEntry item.kind.passed e
  | some specifier =>
    obtain ⟨hkind, hpassed⟩ := passed_of_star hstar
    rw [hpassed]
    cases hk : g.resolve? importer specifier with
    | some k =>
      have hitem : g.collectItem isEntry importer collect e item = collect e k := by
        simp only [ModuleGraph.collectItem, hkind, hk]
      have htargets : g.starTargets importer [item] = [k] := by simp [ModuleGraph.starTargets, hstar, hk]
      have houters : g.starOuters importer [item] = [] := by simp [ModuleGraph.starOuters, hstar, hk]
      rw [hitem, htargets, houters, ite_self]
      exact hcollect e he k (ModuleGraph.lt_size_of_resolve? hk)
    | none =>
      have hitem : g.collectItem isEntry importer collect e item =
          if isEntry then { e with stars := e.stars ++ [specifier] } else e := by
        simp only [ModuleGraph.collectItem, hkind, hk]
      have htargets : g.starTargets importer [item] = [] := by simp [ModuleGraph.starTargets, hstar, hk]
      have houters : g.starOuters importer [item] = [specifier] := by
        simp [ModuleGraph.starOuters, hstar, hk]
      have hsame := refl g e
      rw [hitem, htargets, houters]
      cases isEntry with
      | false => exact hsame
      | true => exact ⟨hsame.visited, hsame.follows, hsame.reached, hsame.closed, hsame.names, id, rfl⟩

theorem items (isEntry : Bool) (importer : String) {collect : ExportedNames → Nat → ExportedNames} {visited : List Nat}
    (hcollect : ∀ e, visited ⊆ e.visited → ∀ k < g.size, Collects g [] [k] [] e (collect e k))
    (he : visited ⊆ e.visited) (items : List LinkItem) :
    Collects g (exposed isEntry (items.flatMap (·.kind.passed))) (g.starTargets importer items)
      (if isEntry then g.starOuters importer items else []) e
      (items.foldl (g.collectItem isEntry importer collect) e) := by
  induction items generalizing e with
  | nil =>
    cases isEntry with
    | false => exact refl g e
    | true => exact refl g e
  | cons first items ih =>
    have hfirst := item isEntry importer hcollect he first
    have hrest := ih (List.Subset.trans he hfirst.visited)
    have hall := hfirst.trans hrest
    have hown : exposed isEntry (first.kind.passed) ++ exposed isEntry (items.flatMap (·.kind.passed)) =
        exposed isEntry ((first :: items).flatMap (·.kind.passed)) := by
      rw [exposed, exposed, exposed, List.flatMap_cons, List.filter_append]
    have htargets : g.starTargets importer [first] ++ g.starTargets importer items =
        g.starTargets importer (first :: items) := by
      simp only [ModuleGraph.starTargets, ← List.filterMap_append, List.singleton_append]
    have houters : g.starOuters importer [first] ++ g.starOuters importer items =
        g.starOuters importer (first :: items) := by
      simp only [ModuleGraph.starOuters, ← List.filterMap_append, ← List.filter_append, List.singleton_append]
    rw [hown, htargets] at hall
    cases isEntry with
    | false => exact hall
    | true =>
      rw [← houters]
      exact hall

theorem seen {i : Nat} (h : i ∈ e.visited) : Collects g [] [i] [] e e := by
  have hsame := refl g e
  refine ⟨hsame.visited, ?_, fun i hi => Or.inl hi, hsame.closed, hsame.names, id, hsame.stars⟩
  intro k hk
  exact List.mem_singleton.1 hk ▸ h

/-- A module is visited when its items are. -/
theorem closes {m : Module} {i : Nat} (hm : g.get? i = some m) (hnew : i ∉ e.visited)
    (h : Collects g (exposed false m.names) (g.starTargets m.id m.analysis.items) []
      { e with visited := i :: e.visited } e₁) : Collects g [] [i] [] e e₁ := by
  have hi : i ∈ e₁.visited := h.visited List.mem_cons_self
  have hstars : ∀ k, g.Stars i k ↔ k ∈ g.starTargets m.id m.analysis.items := by
    intro k
    refine ⟨?_, fun hk => ⟨m, hm, hk⟩⟩
    rintro ⟨m', hm', hk⟩
    obtain rfl := Option.some.inj (hm.symm.trans hm')
    exact hk
  have hexposes : ∀ n, g.Exposes false i n ↔ n ∈ exposed false m.names := by
    intro n
    refine ⟨?_, fun hn => ⟨m, hm, hn⟩⟩
    rintro ⟨m', hm', hn⟩
    obtain rfl := Option.some.inj (hm.symm.trans hm')
    exact hn
  refine ⟨fun k hk => h.visited (List.mem_cons_of_mem _ hk), ?_, ?_, ?_, ?_, h.nodup, h.stars⟩
  · intro k hk
    exact List.mem_singleton.1 hk ▸ hi
  · intro k hk
    rcases h.reached k hk with hk | ⟨t, ht, hreach⟩
    · rcases List.mem_cons.1 hk with rfl | hk
      · exact Or.inr ⟨k, List.mem_singleton_self k, ReflTransGen.refl⟩
      · exact Or.inl hk
    · exact Or.inr ⟨i, List.mem_singleton_self i, ReflTransGen.head ((hstars t).2 ht) hreach⟩
  · intro j hj hjnew k hk
    by_cases hji : j = i
    · subst hji
      exact h.follows k ((hstars k).1 hk)
    · exact h.closed j hj (by simp [hji, hjnew]) k hk
  · intro n
    rw [h.names, ← hexposes]
    constructor
    · rintro (hn | hn | ⟨j, hj, hjnew, hn⟩)
      · exact Or.inl hn
      · exact Or.inr (Or.inr ⟨i, hi, hnew, hn⟩)
      · exact Or.inr (Or.inr ⟨j, hj, fun hmem => hjnew (List.mem_cons_of_mem _ hmem), hn⟩)
    · rintro (hn | hn | ⟨j, hj, hjnew, hn⟩)
      · exact Or.inl hn
      · exact absurd hn List.not_mem_nil
      · by_cases hji : j = i
        · exact Or.inr (Or.inl (hji ▸ hn))
        · exact Or.inr (Or.inr ⟨j, hj, by simp [hji, hjnew], hn⟩)

/-- A module that was not visited before, with enough steps for those that are left then. -/
theorem opened (isEntry : Bool) (fuel : Nat) {m : Module} {i : Nat} (hm : g.get? i = some m) (hnew : i ∉ e.visited)
    (hcollect : ∀ e', i :: e.visited ⊆ e'.visited → ∀ k < g.size,
      Collects g [] [k] [] e' (g.collectExports fuel false e' k)) :
    Collects g (exposed isEntry m.names) (g.starTargets m.id m.analysis.items)
      (if isEntry then g.starOuters m.id m.analysis.items else []) { e with visited := i :: e.visited }
      (g.collectExports (fuel + 1) isEntry e i) := by
  have hcall : g.collectExports (fuel + 1) isEntry e i =
      m.analysis.items.foldl (g.collectItem isEntry m.id (g.collectExports fuel false))
        ((m.analysis.exports.map (·.1)).foldl (ExportedNames.add isEntry)
          { e with visited := i :: e.visited }) := by
    have hseen : e.visited.contains i = false := by simpa using hnew
    rw [ModuleGraph.collectExports, hseen, hm]
    rfl
  rw [hcall]
  have hown := addAll g isEntry (m.analysis.exports.map (·.1)) { e with visited := i :: e.visited }
  have hitems := items isEntry m.id hcollect hown.visited m.analysis.items
  have hall := hown.trans hitems
  rwa [exposed, exposed, ← List.filter_append] at hall

/-- With a step for each module that is left, a module and all that it leads to are visited. -/
theorem call {fuel : Nat} (hfuel : (unvisited g.size e.visited).length ≤ fuel) {i : Nat} (hi : i < g.size) :
    Collects g [] [i] [] e (g.collectExports fuel false e i) := by
  obtain ⟨m, hm⟩ := ModuleGraph.exists_get? hi
  induction fuel generalizing e i m with
  | zero =>
    exact seen (mem_of_length_unvisited hfuel hi)
  | succ fuel ih =>
    by_cases hseen : i ∈ e.visited
    · have hcall : g.collectExports (fuel + 1) false e i = e := if_pos (List.contains_iff_mem.2 hseen)
      rw [hcall]
      exact seen hseen
    · have hlt := length_unvisited_cons_lt hi hseen
      have hopened := opened false fuel hm hseen fun e' he' k hk => by
        obtain ⟨m', hm'⟩ := ModuleGraph.exists_get? hk
        exact ih (Nat.le_trans (length_unvisited_le g.size he') (by omega)) hk m' hm'
      exact hopened.closes hm hseen

end Collects

namespace ModuleGraph

variable {g : ModuleGraph} {m : Module} {entry i : Nat} {n : String}

theorem collects_exportedBy (hm : g.get? entry = some m) :
    Collects g (exposed true m.names) (g.starTargets m.id m.analysis.items) (g.starOuters m.id m.analysis.items)
      { visited := [entry] } (g.exportedBy entry) := by
  refine Collects.opened true _ (e := {}) hm List.not_mem_nil fun e' _ k hk => ?_
  have hle : (unvisited g.size e'.visited).length ≤ g.size :=
    Nat.le_trans (List.length_filter_le ..) (Nat.le_of_eq List.length_range)
  exact Collects.call (Nat.le_succ_of_le hle) hk

theorem exportedBy_of_none (h : g.get? entry = none) : g.exportedBy entry = { visited := [entry] } := by
  rw [exportedBy, collectExports, h]
  rfl

theorem mem_visited_exportedBy (h : ReflTransGen g.Stars entry i) : i ∈ (g.exportedBy entry).visited := by
  cases hm : g.get? entry with
  | none =>
    have hi : i = entry := by
      cases h.cases_head with
      | inl h => exact h.symm
      | inr h =>
        obtain ⟨k, ⟨m, hm', -⟩, -⟩ := h
        exact absurd (hm.symm.trans hm') (by simp)
    rw [exportedBy_of_none hm, hi]
    exact List.mem_singleton_self entry
  | some m =>
    have hcollects := collects_exportedBy hm
    induction h with
    | refl => exact hcollects.visited (List.mem_singleton_self entry)
    | @tail j k _ hstar ih =>
      by_cases hj : j = entry
      · obtain ⟨m', hm', hk⟩ := hstar
        obtain rfl := Option.some.inj (hm.symm.trans (hj ▸ hm'))
        exact hcollects.follows k hk
      · exact hcollects.closed j ih (by simpa using hj) k hstar

theorem nodup_exportedBy (g : ModuleGraph) (entry : Nat) : (g.exportedBy entry).names.Nodup := by
  cases hm : g.get? entry with
  | none =>
    rw [exportedBy_of_none hm]
    exact List.nodup_nil
  | some m => exact (collects_exportedBy hm).nodup List.nodup_nil

/-- The names are those of all modules that star exports lead to, `default` that of the entry alone. -/
theorem mem_exportedBy : n ∈ (g.exportedBy entry).names ↔
    ∃ i, ReflTransGen g.Stars entry i ∧ g.Exposes (i == entry) i n := by
  cases hm : g.get? entry with
  | none =>
    rw [exportedBy_of_none hm]
    refine ⟨fun h => absurd h List.not_mem_nil, ?_⟩
    rintro ⟨i, hreach, m', hm', -⟩
    rcases hreach.cases_head with rfl | ⟨k, ⟨m, hm'', -⟩, -⟩
    · exact absurd (hm.symm.trans hm') (by simp)
    · exact absurd (hm.symm.trans hm'') (by simp)
  | some m =>
    have hcollects := collects_exportedBy hm
    rw [hcollects.names]
    constructor
    · rintro (h | h | ⟨i, hi, hne, hexposes⟩)
      · exact absurd h List.not_mem_nil
      · exact ⟨entry, ReflTransGen.refl, m, hm, by simpa using h⟩
      · rcases hcollects.reached i hi with hi | ⟨k, hk, hreach⟩
        · exact absurd hi hne
        · have hbeq : (i == entry) = false := by simpa using hne
          exact ⟨i, ReflTransGen.head ⟨m, hm, hk⟩ hreach, hbeq ▸ hexposes⟩
    · rintro ⟨i, hreach, hexposes⟩
      by_cases hi : i = entry
      · subst hi
        obtain ⟨m', hm', hn⟩ := hexposes
        obtain rfl := Option.some.inj (hm.symm.trans hm')
        exact Or.inr (Or.inl (by simpa using hn))
      · have hbeq : (i == entry) = false := by simpa using hi
        exact Or.inr (Or.inr ⟨i, mem_visited_exportedBy hreach, by simpa using hi, hbeq ▸ hexposes⟩)

theorem mem_stars_exportedBy {specifier : String} :
    specifier ∈ (g.exportedBy entry).stars ↔ g.StarsOuter entry specifier := by
  cases hm : g.get? entry with
  | none =>
    rw [exportedBy_of_none hm]
    refine ⟨fun h => absurd h List.not_mem_nil, ?_⟩
    rintro ⟨m, hm', -⟩
    exact absurd (hm.symm.trans hm') (by simp)
  | some m =>
    rw [(collects_exportedBy hm).stars]
    refine ⟨fun h => ⟨m, hm, h⟩, ?_⟩
    rintro ⟨m', hm', h⟩
    obtain rfl := Option.some.inj (hm.symm.trans hm')
    exact h

/-- No external module is lost whose names star exports lead to. -/
def KeepsStars (g : ModuleGraph) (entry : Nat) (stars : List String) : Prop :=
  ∀ i specifier, ReflTransGen g.Stars entry i → g.StarsOuter i specifier → specifier ∈ stars

/-- A chunk ends in the star exports that are kept. They are all exactly when the entry itself has those of
each module that it exports the names of. -/
theorem keepsStars_iff (g : ModuleGraph) (modules : List Nat) (entry : Nat) :
    g.chunkText modules entry = String.join (g.importTexts modules) ++ chunkHead ++
        (g.bodyText modules []).1 ++ (namesText entry (g.exportedBy entry).names ++
          String.join ((g.exportedBy entry).stars.map starText)) ∧
      (g.KeepsStars entry (g.exportedBy entry).stars ↔ ∀ i specifier, ReflTransGen g.Stars entry i →
        g.StarsOuter i specifier → g.StarsOuter entry specifier) := by
  refine ⟨rfl, ?_⟩
  constructor
  · intro h i specifier hreach houter
    exact mem_stars_exportedBy.1 (h i specifier hreach houter)
  · intro h i specifier hreach houter
    exact mem_stars_exportedBy.2 (h i specifier hreach houter)

/-- An entry that exports the names of a module, which exports those of an external one. -/
def starsInLine : ModuleGraph where
  modules :=
    [⟨"index.js", "export * from './a.js';", [⟨"./a.js", false, [⟨"*", "*"⟩]⟩],
        [⟨⟨0, 23⟩, .exportStar "./a.js" none⟩], []⟩,
      ⟨"a.js", "export * from 'https://x/y.js';", [⟨"https://x/y.js", false, [⟨"*", "*"⟩]⟩],
        [⟨⟨0, 31⟩, .exportStar "https://x/y.js" none⟩], []⟩]
  edges := [⟨"index.js", "./a.js", "a.js", false⟩]

theorem not_keepsStars_starsInLine :
    (∀ m ∈ starsInLine.modules, (analyze m.source m.id).toOption = some m.analysis) ∧
      ¬ starsInLine.KeepsStars 0 (starsInLine.exportedBy 0).stars := by
  refine ⟨by decide +kernel, fun h => ?_⟩
  have hstars : starsInLine.Stars 0 1 := ⟨_, rfl, by decide +kernel⟩
  have houter : starsInLine.StarsOuter 1 "https://x/y.js" := ⟨_, rfl, by decide +kernel⟩
  have hnone : (starsInLine.exportedBy 0).stars = [] := by decide +kernel
  have hkept := h 1 _ (ReflTransGen.single hstars) houter
  rw [hnone] at hkept
  exact List.not_mem_nil hkept

end ModuleGraph

end LiveNotes.Bundle
