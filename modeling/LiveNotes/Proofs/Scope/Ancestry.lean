import LiveNotes.Proofs.Scope.Climb
import LiveNotes.Proofs.Scope.Operation

/-! Scopes and those above them. Names are looked for in a scope, then in its parent, and so on; a wait
goes the same way. This comes to an end from every scope when none is above itself, which holds in all
graphs of a run exactly when no operation moves a scope below one that it is above of. Nothing keeps
operations from that. -/

namespace LiveNotes.ScopeGraph

open Relation

variable {V β : Type} {g : ScopeGraph V} {id n p : String} {l : List String} {f : Scope V → Option β}

/-- The parents of a scope lead to another one. -/
def Ancestor (g : ScopeGraph V) : String → String → Prop := TransGen fun a b => g.parent? a = some b

def Acyclic (g : ScopeGraph V) : Prop := ∀ id, ¬ g.Ancestor id id

/-- A search from a scope upwards comes to its end with a result: it takes one scope after the other and
ends at the first where `f` finds something, or where there is no scope to go on with. -/
inductive Search (g : ScopeGraph V) (f : Scope V → Option β) : String → Option β → Prop
  | gone {id : String} : g.scope? id = none → Search g f id none
  | found {id : String} {s : Scope V} {b : β} :
      g.scope? id = some s → f s = some b → Search g f id (some b)
  | top {id : String} {s : Scope V} :
      g.scope? id = some s → f s = none → s.parent = none → Search g f id none
  | up {id p : String} {s : Scope V} {r : Option β} :
      g.scope? id = some s → f s = none → s.parent = some p → Search g f p r → Search g f id r

/-- The scopes from one up to the top, each the parent of the one before. -/
structure Ascent (g : ScopeGraph V) (id : String) (l : List String) : Prop where
  chain : (id :: l).IsChain fun a b => g.parent? a = some b
  top : g.parent? ((id :: l).getLast (List.cons_ne_nil id l)) = none

/-- A wait is over, or it stands at a scope that is blocked. -/
def Comes (g : ScopeGraph V) (w : ScopeWait) : Prop :=
  g.await? w = none ∧ Clear g.parent? g.Open w.id ∨
    ∃ w', g.await? w = some w' ∧ Climbed g.parent? g.Open w.id w'.id ∧ g.isBlocked w'.id = true

/-- No live scope is above itself. So all ways up come to an end, names have the value of the nearest
scope that binds them, and waits do not go round. -/
structure Treelike (g : ScopeGraph V) : Prop where
  acyclic : ∀ id, g.isLive id = true → ¬ g.Ancestor id id
  get : ∀ id name, g.Search (fun s => s.bindings.get? name) id (g.get? id name)
  has : ∀ id name, g.Search (fun s => if s.bindings.has name then some () else none) id
    (if g.has id name then some () else none)
  nearest : ∀ id, ∃ l, g.Ascent id l ∧ ∀ name,
    g.get? id name = (id :: l).findSome? fun n => (g.scope? n).bind fun s => s.bindings.get? name
  has_eq : ∀ id name, g.has id name = (g.get? id name).isSome
  wait : ∀ w, g.Current w → g.Comes w

/-- An operation moves a scope below one that it is above of. -/
def Operation.Tangles (g : ScopeGraph V) : Operation V → Prop
  | .child p id => id ≠ p ∧ g.isLive id = true ∧ Above g.parent? p id
  | _ => False

def Operation.Untangled : List (Operation V) → ScopeGraph V → Prop
  | [], _ => True
  | op :: ops, g => ¬ op.Tangles g ∧ Untangled ops (op.apply g)

/-- A property of the graph before, between and after some operations. -/
def Operation.Throughout (P : ScopeGraph V → Prop) : List (Operation V) → ScopeGraph V → Prop
  | [], g => P g
  | op :: ops, g => P g ∧ Throughout P ops (op.apply g)

/-- No operation is bad for the graph that it is applied to. -/
def Operation.Avoids (bad : ScopeGraph V → Operation V → Prop) : List (Operation V) → ScopeGraph V → Prop
  | [], _ => True
  | op :: ops, g => ¬ bad g op ∧ Avoids bad ops (op.apply g)

theorem Operation.Throughout.head {P : ScopeGraph V → Prop} {ops : List (Operation V)}
    (h : Operation.Throughout P ops g) : P g := by
  cases ops with
  | nil => exact h
  | cons op ops => exact h.1

/-- What every operation keeps that is not bad, and no bad one, is kept throughout exactly by runs without
bad operations. -/
theorem Operation.throughout_iff_avoids {I P : ScopeGraph V → Prop}
    {bad : ScopeGraph V → Operation V → Prop} (hI : ∀ g op, I g → I (Operation.apply op g))
    (hstep : ∀ g op, I g → P g → (P (Operation.apply op g) ↔ ¬ bad g op)) (ops : List (Operation V))
    (hg : I g) (hP : P g) : Operation.Throughout P ops g ↔ Operation.Avoids bad ops g := by
  induction ops generalizing g with
  | nil => exact iff_of_true hP trivial
  | cons op ops ih =>
    constructor
    · rintro ⟨-, hrest⟩
      have hnext : P (op.apply g) := hrest.head
      exact ⟨(hstep g op hg hP).1 hnext, (ih (hI g op hg) hnext).1 hrest⟩
    · rintro ⟨hop, hrest⟩
      have hnext : P (op.apply g) := (hstep g op hg hP).2 hop
      exact ⟨hP, (ih (hI g op hg) hnext).2 hrest⟩

/-! ### Ways up -/

theorem mem_scopes_of_isLive (h : g.isLive id = true) : id ∈ g.scopes.map Prod.fst := by
  obtain ⟨s, hs⟩ := Option.isSome_iff_exists.1 h
  obtain ⟨l₁, l₂, hsplit, -⟩ := List.lookup_eq_some_iff.1 hs
  rw [hsplit]
  simp

theorem isLive_of_ancestor (h : g.Ancestor id n) : g.isLive id = true := by
  obtain ⟨p, hp, -⟩ := TransGen.head'_iff.1 h
  obtain ⟨s, hs, -⟩ := Option.bind_eq_some_iff.1 hp
  rw [isLive_eq, hs]
  rfl

/-- A way up takes a new scope with each step, so that it ends before there are none left. -/
theorem Acyclic.clear_of_below {below : List String} (h : g.Acyclic) (hnodup : below.Nodup)
    (hlive : below ⊆ g.scopes.map Prod.fst) (hbelow : ∀ n ∈ below, g.Ancestor n id) (count : Nat)
    (hcount : g.size < below.length + count) : Clear g.parent? (fun _ => True) id := by
  induction count generalizing id below with
  | zero =>
    have hlength := hnodup.length_le_of_subset hlive
    rw [List.length_map] at hlength
    exact absurd hcount (Nat.not_lt.2 hlength)
  | succ count ih =>
    cases hp : g.parent? id with
    | none => exact Clear.top trivial hp
    | some p =>
      have hnew : id ∉ below := fun hid => h id (hbelow id hid)
      refine Clear.up trivial hp (ih (List.nodup_cons.2 ⟨hnew, hnodup⟩) ?_ ?_ ?_)
      · exact List.cons_subset.2 ⟨mem_scopes_of_parent? hp, hlive⟩
      · intro n hn
        rcases List.mem_cons.1 hn with rfl | hn
        · exact TransGen.single hp
        · exact (hbelow n hn).tail hp
      · rw [List.length_cons]
        omega

theorem Acyclic.exists_ascent (h : g.Acyclic) (id : String) :
    ∃ l, g.Ascent id l ∧ (id :: l).Nodup ∧ ∀ n ∈ id :: l, Above g.parent? id n := by
  have hclear : Clear g.parent? (fun _ => True) id := by
    refine h.clear_of_below List.nodup_nil (List.nil_subset _) ?_ (g.size + 1)
      (Nat.lt_add_left _ (Nat.lt_succ_self _))
    intro n hn
    contradiction
  obtain ⟨l, hnodup, habove, hchain, htop⟩ := hclear.exists_path
  exact ⟨l, ⟨hchain, htop⟩, hnodup, habove⟩

theorem Ascent.tail {b : String} (h : g.Ascent id (b :: l)) : g.parent? id = some b ∧ g.Ascent b l := by
  obtain ⟨hup, hchain⟩ := List.isChain_cons_cons.1 h.chain
  refine ⟨hup, hchain, ?_⟩
  have htop := h.top
  rwa [List.getLast_cons (List.cons_ne_nil b l)] at htop

theorem Listed.isLive_of_above (h : g.Listed) (hid : g.isLive id = true)
    (habove : Above g.parent? id n) : g.isLive n = true := by
  induction habove with
  | refl => exact hid
  | tail _ hup _ => exact h.isLive_parent hup

theorem Acyclic.ascent_length_lt (h : g.Acyclic) (hl : g.Listed) (id : String) :
    ∃ l, g.Ascent id l ∧ (g.isLive id = true → l.length < g.size) := by
  obtain ⟨l, hascent, hnodup, habove⟩ := h.exists_ascent id
  refine ⟨l, hascent, fun hid => ?_⟩
  have hsub : id :: l ⊆ g.scopes.map Prod.fst :=
    fun n hn => mem_scopes_of_isLive (hl.isLive_of_above hid (habove n hn))
  have hlength := hnodup.length_le_of_subset hsub
  rw [List.length_map, List.length_cons] at hlength
  exact hlength

/-! ### Searches -/

theorem search_ascent (h : g.Ascent id l) :
    g.Search f id ((id :: l).findSome? fun n => (g.scope? n).bind f) := by
  induction l generalizing id with
  | nil =>
    have hup : g.parent? id = none := h.top
    cases hs : g.scope? id with
    | none => simpa [hs] using Search.gone (f := f) hs
    | some s =>
      have hp : s.parent = none := by simpa [parent?, hs] using hup
      cases hf : f s with
      | none => simpa [hs, hf] using Search.top hs hf hp
      | some b => simpa [hs, hf] using Search.found hs hf
  | cons b l ih =>
    obtain ⟨hup, hrest⟩ := h.tail
    obtain ⟨s, hs, hp⟩ := Option.bind_eq_some_iff.1 hup
    cases hf : f s with
    | none =>
      rw [List.findSome?_cons, hs, Option.bind_some, hf]
      exact Search.up hs hf hp (ih hrest)
    | some b => simpa [hs, hf] using Search.found hs hf

theorem findSome?_upwards (h : g.Ascent id l) {count : Nat} (hcount : g.isLive id = true → l.length < count) :
    (g.upwards count id).findSome? f = (id :: l).findSome? fun n => (g.scope? n).bind f := by
  induction l generalizing id count with
  | nil =>
    have hup : g.parent? id = none := h.top
    cases hs : g.scope? id with
    | none =>
      have hnone : g.upwards count id = [] := by
        cases count with
        | zero => rfl
        | succ count => rw [upwards, hs]
      rw [hnone]
      simp [hs]
    | some s =>
      have hp : s.parent = none := by simpa [parent?, hs] using hup
      have hpos : 0 < count := hcount (by rw [isLive_eq, hs]; rfl)
      obtain ⟨count, rfl⟩ := Nat.exists_eq_add_one_of_ne_zero (Nat.ne_of_gt hpos)
      rw [upwards, hs]
      simp [hs, hp]
  | cons b l ih =>
    obtain ⟨hup, hrest⟩ := h.tail
    obtain ⟨s, hs, hp⟩ := Option.bind_eq_some_iff.1 hup
    have hlt : (b :: l).length < count := hcount (by rw [isLive_eq, hs]; rfl)
    obtain ⟨count, rfl⟩ := Nat.exists_eq_add_one_of_ne_zero (Nat.ne_of_gt (Nat.zero_lt_of_lt hlt))
    have hrec : (g.upwards count b).findSome? f = (b :: l).findSome? fun n => (g.scope? n).bind f :=
      ih hrest fun _ => Nat.lt_of_succ_lt_succ hlt
    rw [upwards, hs]
    simp only [hp, Option.map_some, Option.getD_some, List.findSome?_cons, hrec, hs, Option.bind_some]

theorem has_eq_isSome (g : ScopeGraph V) (id name : String) : g.has id name = (g.get? id name).isSome := by
  unfold has get? Table.has
  induction g.path id with
  | nil => rfl
  | cons s ss ih =>
    rw [List.any_cons, List.findSome?_cons, ih]
    cases Table.get? s.bindings name with
    | none => rfl
    | some v => rfl

/-! ### Waits -/

theorem goOn_ascent {w : ScopeWait} {count : Nat} (hw : g.Current w) (h : g.Ascent w.id l)
    (hcount : l.length < count) :
    g.goOn count w = none ∨ ∃ w', g.goOn count w = some w' ∧ g.isBlocked w'.id = true := by
  induction l generalizing w count with
  | nil =>
    obtain ⟨count, rfl⟩ := Nat.exists_eq_add_one_of_ne_zero (Nat.ne_of_gt hcount)
    have hup : g.parent? w.id = none := h.top
    rw [goOn]
    split
    · rw [hup]
      exact Or.inl rfl
    · next hstay =>
      have hblocked : g.isBlocked w.id = true := by
        rw [hw.letsGo_iff] at hstay
        simpa [Open] using hstay
      exact Or.inr ⟨g.hold w, rfl, hblocked⟩
  | cons b l ih =>
    obtain ⟨hup, hrest⟩ := h.tail
    obtain ⟨count, rfl⟩ := Nat.exists_eq_add_one_of_ne_zero (Nat.ne_of_gt (Nat.zero_lt_of_lt hcount))
    rw [goOn]
    split
    · rw [hup]
      exact ih (current_mk g b) hrest (Nat.lt_of_succ_lt_succ hcount)
    · next hstay =>
      have hblocked : g.isBlocked w.id = true := by
        rw [hw.letsGo_iff] at hstay
        simpa [Open] using hstay
      exact Or.inr ⟨g.hold w, rfl, hblocked⟩

theorem comes_of_ascent {w : ScopeWait} (hw : g.Current w) (h : g.Ascent w.id l)
    (hlength : l.length < g.size + 1) : g.Comes w := by
  rcases goOn_ascent hw h hlength with hover | ⟨w', hstay, hblocked⟩
  · exact Or.inl ⟨hover, goOn_eq_none hw hover⟩
  · exact Or.inr ⟨w', hstay, (goOn_eq_some hw hstay).1, hblocked⟩

/-! ### Trees -/

theorem treelike_iff (hl : g.Listed) : g.Treelike ↔ g.Acyclic := by
  constructor
  · intro h id hloop
    exact h.acyclic id (isLive_of_ancestor hloop) hloop
  · intro h
    have hpath : ∀ {β : Type} (f : Scope V → Option β) id, ∃ l, g.Ascent id l ∧
        (g.path id).findSome? f = (id :: l).findSome? fun n => (g.scope? n).bind f := by
      intro β f id
      obtain ⟨l, hascent, hlength⟩ := h.ascent_length_lt hl id
      exact ⟨l, hascent, findSome?_upwards hascent hlength⟩
    have hsearch : ∀ {β : Type} (f : Scope V → Option β) id,
        g.Search f id ((g.path id).findSome? f) := by
      intro β f id
      obtain ⟨l, hascent, heq⟩ := hpath f id
      exact heq ▸ search_ascent hascent
    refine ⟨fun id _ => h id, fun id name => hsearch _ id, ?_, ?_, g.has_eq_isSome, ?_⟩
    · intro id name
      have hhas : (if g.has id name then some () else none) =
          (g.path id).findSome? fun s => if s.bindings.has name then some () else none := by
        unfold has
        induction g.path id with
        | nil => rfl
        | cons s ss ih =>
          rw [List.any_cons, List.findSome?_cons, ← ih]
          cases s.bindings.has name with
          | true => rfl
          | false => rfl
      exact hhas ▸ hsearch _ id
    · intro id
      obtain ⟨l, hascent, hlength⟩ := h.ascent_length_lt hl id
      exact ⟨l, hascent, fun name => findSome?_upwards hascent hlength⟩
    · intro w hw
      obtain ⟨l, hascent, hlength⟩ := h.ascent_length_lt hl w.id
      refine comes_of_ascent hw hascent ?_
      cases hid : g.isLive w.id with
      | true => exact Nat.lt_succ_of_lt (hlength hid)
      | false =>
        cases l with
        | nil => exact Nat.succ_pos _
        | cons b l =>
          have hlive := isLive_of_ancestor (TransGen.single hascent.tail.1)
          rw [hid] at hlive
          contradiction

/-! ### Operations -/

theorem acyclic_new : (new : ScopeGraph V).Acyclic := by
  intro id hloop
  obtain ⟨p, hp, -⟩ := TransGen.head'_iff.1 hloop
  rw [parent?_new] at hp
  contradiction

/-- A way along old links and a new one from `id` to `p` is an old one, or comes to `id` and goes on
from `p`. -/
theorem transGen_of_link {up up' : String → Option String} {a b : String}
    (hup : ∀ a b, up' a = some b → up a = some b ∨ a = id ∧ b = p ∧ id ≠ p)
    (h : TransGen (fun a b => up' a = some b) a b) :
    TransGen (fun a b => up a = some b) a b ∨ id ≠ p ∧ Above up a id ∧ Above up p b := by
  induction h with
  | single hab =>
    rcases hup _ _ hab with hold | ⟨rfl, rfl, hne⟩
    · exact Or.inl (TransGen.single hold)
    · exact Or.inr ⟨hne, ReflTransGen.refl, ReflTransGen.refl⟩
  | tail _ hbc ih =>
    rcases hup _ _ hbc with hold | ⟨rfl, rfl, hne⟩
    · rcases ih with hway | ⟨hne, hto, hfrom⟩
      · exact Or.inl (hway.tail hold)
      · exact Or.inr ⟨hne, hto, hfrom.tail hold⟩
    · rcases ih with hway | ⟨-, hto, -⟩
      · exact Or.inr ⟨hne, hway.to_reflTransGen, ReflTransGen.refl⟩
      · exact Or.inr ⟨hne, hto, ReflTransGen.refl⟩

/-- A way to a scope is as before when the link of that scope alone is changed. -/
theorem above_of_link {up up' : String → Option String} {a : String} (hup : ∀ n, n ≠ id → up' n = up n)
    (h : Above up a id) : Above up' a id := by
  induction h using ReflTransGen.head_induction_on with
  | refl => exact ReflTransGen.refl
  | @head a b hab _ ih =>
    by_cases ha : a = id
    · exact ha ▸ ReflTransGen.refl
    · exact ReflTransGen.head ((hup a ha).trans hab) ih

theorem isLive_of_above_of_ne (hl : g.Listed) (h : Above g.parent? p id) (hne : id ≠ p) :
    g.isLive id = true := by
  rcases ReflTransGen.cases_tail h with heq | ⟨a, -, ha⟩
  · exact absurd heq hne
  · exact hl.isLive_parent ha

/-- Only a scope that is moved below one it is above of comes to be above itself. -/
theorem acyclic_apply_of_not_tangles (hl : g.Listed) (h : g.Acyclic) (op : Operation V)
    (hop : ¬ op.Tangles g) : (op.apply g).Acyclic := by
  intro n hloop
  by_cases hchild : ∃ p id, op = .child p id
  · obtain ⟨p, id, rfl⟩ := hchild
    have hup : ∀ a b, ((Operation.child p id).apply g).parent? a = some b →
        g.parent? a = some b ∨ a = id ∧ b = p ∧ id ≠ p := fun a b hab => parent?_of_child hab
    rcases transGen_of_link hup hloop with hold | ⟨hne, hto, hfrom⟩
    · exact h n hold
    · have habove : Above g.parent? p id := hfrom.trans hto
      exact hop ⟨hne, isLive_of_above_of_ne hl habove hne, habove⟩
  · refine h n (TransGen.mono ?_ _ _ hloop)
    intro a b hab
    rcases parent?_of_apply op hab with hold | ⟨heq, -⟩
    · exact hold
    · exact absurd ⟨b, a, heq⟩ hchild

theorem ancestor_self_of_tangles (h : g.Acyclic) (hne : id ≠ p) (hid : g.isLive id = true)
    (habove : Above g.parent? p id) : (g.child p id).Ancestor id id := by
  obtain ⟨s, hs⟩ := Option.isSome_iff_exists.1 hid
  have hs' : g.scope? id = some s := hs
  have hp : g.isLive p = true := by
    rcases ReflTransGen.cases_head habove with heq | ⟨a, ha, -⟩
    · exact absurd heq.symm hne
    · exact isLive_of_ancestor (TransGen.single ha)
  have hnot : s.parent ≠ some p := by
    intro hsp
    have hup : g.parent? id = some p := (congrArg (·.bind (·.parent)) hs').trans hsp
    exact h id (TransGen.head' hup habove)
  have hup : ∀ n, (g.child p id).parent? n = if n = id then some p else g.parent? n := by
    intro n
    rw [child_of_live hne hp hs' hnot]
    exact parent?_move g s.parent p id n hid
  refine TransGen.head' ((hup id).trans (if_pos rfl)) (above_of_link ?_ habove)
  intro n hn
  exact (hup n).trans (if_neg hn)

theorem acyclic_apply_iff (hl : g.Listed) (h : g.Acyclic) (op : Operation V) :
    (op.apply g).Acyclic ↔ ¬ op.Tangles g := by
  refine ⟨?_, acyclic_apply_of_not_tangles hl h op⟩
  intro hacyclic hop
  cases op with
  | child p id => exact hacyclic id (ancestor_self_of_tangles h hop.1 hop.2.1 hop.2.2)
  | _ => exact hop

theorem throughout_treelike_of_acyclic (ops : List (Operation V)) (hl : g.Listed) (h : g.Acyclic) :
    Operation.Throughout Treelike ops g ↔ Operation.Untangled ops g := by
  induction ops generalizing g with
  | nil =>
    refine ⟨fun _ => trivial, fun _ => ?_⟩
    exact (treelike_iff hl).2 h
  | cons op ops ih =>
    have hl' := hl.apply op
    constructor
    · rintro ⟨-, hrest⟩
      have hnext : (op.apply g).Acyclic := (treelike_iff hl').1 hrest.head
      exact ⟨(acyclic_apply_iff hl h op).1 hnext, (ih hl' hnext).1 hrest⟩
    · rintro ⟨hop, hrest⟩
      have hnext := (acyclic_apply_iff hl h op).2 hop
      exact ⟨(treelike_iff hl).2 h, (ih hl' hnext).2 hrest⟩

/-- In all graphs of a run from the new one no scope is above itself, and so all ways up come to an end,
exactly when no operation moves a scope below one that it is above of. -/
theorem throughout_treelike_iff (ops : List (Operation V)) :
    Operation.Throughout Treelike ops (new : ScopeGraph V) ↔ Operation.Untangled ops (new : ScopeGraph V) :=
  throughout_treelike_of_acyclic ops listed_new acyclic_new

/-! ### A scope below its own child -/

/-- Where each scope leads to another one and nothing is found, a search does not end. -/
theorem not_search {P : String → Prop} (hP : ∀ n, P n → ∃ s p, g.scope? n = some s ∧ f s = none ∧
    s.parent = some p ∧ P p) (hid : P id) (r : Option β) : ¬ g.Search f id r := by
  intro h
  induction h with
  | gone hs =>
    obtain ⟨s', p', hs', -⟩ := hP _ hid
    rw [hs] at hs'
    contradiction
  | found hs hf =>
    obtain ⟨s', p', hs', hf', -⟩ := hP _ hid
    obtain rfl := Option.some.inj (hs.symm.trans hs')
    rw [hf] at hf'
    contradiction
  | top hs hf hp =>
    obtain ⟨s', p', hs', -, hp', -⟩ := hP _ hid
    obtain rfl := Option.some.inj (hs.symm.trans hs')
    rw [hp] at hp'
    contradiction
  | up hs hf hp _ ih =>
    obtain ⟨s', p', hs', -, hp', hnext⟩ := hP _ hid
    obtain rfl := Option.some.inj (hs.symm.trans hs')
    obtain rfl := Option.some.inj (hp.symm.trans hp')
    exact ih hnext

def knotted : ScopeGraph Nat :=
  Operation.run [.child rootScopeId "a", .child "a" "b", .child "b" "a"] new

/-- The scope and its child are above each other. A name that neither binds is looked for without end, and
a wait goes round although nothing is blocked. -/
theorem search_endless :
    knotted.Reachable ∧ knotted.isLive "a" = true ∧ knotted.Ancestor "a" "a" ∧
      (∀ r, ¬ knotted.Search (fun s => s.bindings.get? "x") "a" r) ∧
      ∃ w, knotted.await? { id := "a" } = some w ∧ knotted.isBlocked w.id = false := by
  have ha : knotted.scope? "a" = some ⟨some "b", ["b"], [], false, [], 1⟩ := rfl
  have hb : knotted.scope? "b" = some ⟨some "a", ["a"], [], false, [], 2⟩ := rfl
  have hab : knotted.parent? "a" = some "b" := congrArg (·.bind (·.parent)) ha
  have hba : knotted.parent? "b" = some "a" := congrArg (·.bind (·.parent)) hb
  have hround : TransGen (fun a b => knotted.parent? a = some b) "a" "a" :=
    TransGen.head hab (TransGen.single hba)
  refine ⟨Reachable.new.run _, by decide +kernel, hround, ?_, ?_⟩
  · refine not_search (P := fun n => n = "a" ∨ n = "b") ?_ (Or.inl rfl)
    rintro n (rfl | rfl)
    · exact ⟨_, "b", ha, rfl, rfl, Or.inr rfl⟩
    · exact ⟨_, "a", hb, rfl, rfl, Or.inl rfl⟩
  · obtain ⟨w, hw⟩ := Option.isSome_iff_exists.1
      (by decide +kernel : (knotted.await? { id := "a" }).isSome = true)
    have hopen : (knotted.await? { id := "a" }).map (fun w => knotted.isBlocked w.id) = some false := by
      decide +kernel
    rw [hw] at hopen
    exact ⟨w, hw, Option.some.inj hopen⟩

end LiveNotes.ScopeGraph
