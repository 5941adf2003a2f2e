import LiveNotes.Proofs.Scope.Change
import Mathlib.Data.List.Nodup
import Mathlib.Logic.Relation

/-! Waits climb from a scope to those above it, past the ones that are free. A wait is over exactly when
all that it climbs past is free up to a scope without a parent; this many scopes a graph has. -/

namespace LiveNotes

open Relation

section Climb

variable {up : String → Option String} {free free' : String → Prop} {a b c : String}

/-- The parents of one scope lead to another one, or it is the same. -/
def Above (up : String → Option String) : String → String → Prop :=
  ReflTransGen fun a b => up a = some b

/-- The parents of one scope lead to another one past free scopes. -/
def Climbed (up : String → Option String) (free : String → Prop) : String → String → Prop :=
  ReflTransGen fun a b => free a ∧ up a = some b

/-- A scope is free, and so are all above it up to one without a parent. -/
inductive Clear (up : String → Option String) (free : String → Prop) : String → Prop
  | top {a : String} : free a → up a = none → Clear up free a
  | up {a b : String} : free a → up a = some b → Clear up free b → Clear up free a

theorem Climbed.above (h : Climbed up free a b) : Above up a b :=
  ReflTransGen.mono (fun _ _ hab => hab.2) _ _ h

theorem Climbed.mono (h : Climbed up free a b) (hfree : ∀ n, Above up a n → free n → free' n) :
    Climbed up free' a b := by
  induction h with
  | refl => exact ReflTransGen.refl
  | tail hab hbc ih => exact ih.tail ⟨hfree _ (Climbed.above hab) hbc.1, hbc.2⟩

/-- What climbs does not get past a scope that is not free. -/
theorem Climbed.above_of_not_free (h : Climbed up free a b) (hc : ¬ free c) (hac : Above up a c) :
    Above up b c := by
  induction h using ReflTransGen.head_induction_on with
  | refl => exact hac
  | head had _ ih =>
    rcases ReflTransGen.cases_head hac with heq | ⟨d, hd, hdc⟩
    · exact absurd (heq ▸ had.1) hc
    · rw [had.2, Option.some.injEq] at hd
      exact ih (hd ▸ hdc)

theorem Clear.mono (h : Clear up free a) (hfree : ∀ n, Above up a n → free n → free' n) :
    Clear up free' a := by
  induction h with
  | top ha hup => exact Clear.top (hfree _ ReflTransGen.refl ha) hup
  | up ha hup _ ih =>
    refine Clear.up (hfree _ ReflTransGen.refl ha) hup (ih fun n hn => hfree n ?_)
    exact ReflTransGen.head hup hn

theorem Clear.of_climbed (h : Clear up free b) (hab : Climbed up free a b) : Clear up free a := by
  induction hab using ReflTransGen.head_induction_on with
  | refl => exact h
  | head hac _ ih => exact Clear.up hac.1 hac.2 ih

theorem Clear.above (h : Clear up free a) (hab : Above up a b) : Clear up free b := by
  induction hab with
  | refl => exact h
  | tail _ hbc ih =>
    cases ih with
    | top _ hup =>
      rw [hup] at hbc
      contradiction
    | up _ hup hclear =>
      rw [hup, Option.some.injEq] at hbc
      exact hbc ▸ hclear

theorem Clear.here (h : Clear up free a) : free a := by
  cases h with
  | top ha _ => exact ha
  | up ha _ _ => exact ha

/-- Nothing that is clear lies above itself. -/
theorem Clear.acyclic (h : Clear up free a) (hup : up a = some b) : ¬ Above up b a := by
  induction h generalizing b with
  | top _ hnone =>
    rw [hnone] at hup
    contradiction
  | @up a c _ hc _ ih =>
    rw [hc, Option.some.injEq] at hup
    subst hup
    intro hback
    -- A way back would go through the next scope, which is then above itself as well.
    rcases ReflTransGen.cases_head hback with heq | ⟨d, hcd, hda⟩
    · subst heq
      exact ih hc hback
    · exact ih hcd (hda.tail hc)

/-- The scopes from a clear one up to the top, each once. -/
theorem Clear.exists_path (h : Clear up free a) :
    ∃ l : List String, (a :: l).Nodup ∧ (∀ n ∈ a :: l, Above up a n) ∧
      (a :: l).IsChain (fun a b => up a = some b) ∧
      up ((a :: l).getLast (List.cons_ne_nil a l)) = none := by
  induction h with
  | top _ hup => exact ⟨[], by simp, by simp [Above, ReflTransGen.refl], by simp, hup⟩
  | @up a b ha hup hclear ih =>
    obtain ⟨l, hnodup, habove, hchain, htop⟩ := ih
    refine ⟨b :: l, List.nodup_cons.2 ⟨?_, hnodup⟩, ?_, ?_, ?_⟩
    · intro hmem
      exact (Clear.up ha hup hclear).acyclic hup (habove a hmem)
    · intro n hn
      rcases List.mem_cons.1 hn with rfl | hn
      · exact ReflTransGen.refl
      · exact ReflTransGen.head hup (habove n hn)
    · exact List.isChain_cons_cons.2 ⟨hup, hchain⟩
    · rwa [List.getLast_cons (List.cons_ne_nil b l)]

end Climb

namespace ScopeGraph

variable {V : Type} {g g' : ScopeGraph V} {w w' : ScopeWait} {count : Nat}

/-- A wait that knows its scope knows the one that is live. -/
def Current (g : ScopeGraph V) (w : ScopeWait) : Prop :=
  ∀ b ∈ w.birth, ∀ s, g.scope? w.id = some s → b = s.birth

def Open (g : ScopeGraph V) (id : String) : Prop := g.isBlocked id = false

theorem current_mk (g : ScopeGraph V) (id : String) : g.Current { id := id } := by
  intro b hb
  contradiction

theorem current_hold (g : ScopeGraph V) (w : ScopeWait) : g.Current (g.hold w) := by
  intro b hb s hs
  have hs' : g.scope? w.id = some s := hs
  rw [hold, hs'] at hb
  exact (Option.some.inj hb).symm

theorem Current.letsGo_iff (h : g.Current w) : g.letsGo w = true ↔ g.Open w.id := by
  unfold letsGo Open isBlocked
  cases hs : g.scope? w.id with
  | none => simp
  | some s =>
    have hbirth : w.birth.any (· != s.birth) = false := by
      cases hb : w.birth with
      | none => rfl
      | some b => simp [h b hb s hs]
    simp [hbirth]

/-! ### Waits that climb -/

theorem goOn_eq_some (hw : g.Current w) (h : g.goOn count w = some w') :
    Climbed g.parent? g.Open w.id w'.id ∧ g.Current w' := by
  induction count generalizing w with
  | zero =>
    rw [goOn, Option.some.injEq] at h
    subst h
    exact ⟨ReflTransGen.refl, hw⟩
  | succ count ih =>
    rw [goOn] at h
    split at h
    · next hgo =>
      split at h
      · contradiction
      · next p hp =>
        obtain ⟨hclimbed, hcurrent⟩ := ih (current_mk g p) h
        exact ⟨ReflTransGen.head ⟨hw.letsGo_iff.1 hgo, hp⟩ hclimbed, hcurrent⟩
    · rw [Option.some.injEq] at h
      subst h
      exact ⟨ReflTransGen.refl, current_hold g w⟩

theorem goOn_eq_none (hw : g.Current w) (h : g.goOn count w = none) : Clear g.parent? g.Open w.id := by
  induction count generalizing w with
  | zero => simp [goOn] at h
  | succ count ih =>
    rw [goOn] at h
    split at h
    · next hgo =>
      have hopen := hw.letsGo_iff.1 hgo
      split at h
      · next hp => exact Clear.top hopen hp
      · next p hp => exact Clear.up hopen hp (ih (current_mk g p) h)
    · contradiction

theorem goOn_of_path {l : List String} (hw : g.Current w)
    (hchain : (w.id :: l).IsChain fun a b => g.parent? a = some b) (hopen : ∀ n ∈ w.id :: l, g.Open n)
    (htop : g.parent? ((w.id :: l).getLast (List.cons_ne_nil w.id l)) = none)
    (hcount : l.length < count) : g.goOn count w = none := by
  induction l generalizing w count with
  | nil =>
    obtain ⟨count, rfl⟩ := Nat.exists_eq_add_one_of_ne_zero (Nat.ne_of_gt hcount)
    rw [goOn, if_pos (hw.letsGo_iff.2 (hopen _ (List.mem_singleton.2 rfl)))]
    rw [List.getLast_singleton] at htop
    rw [htop]
  | cons b l ih =>
    obtain ⟨count, rfl⟩ := Nat.exists_eq_add_one_of_ne_zero (Nat.ne_of_gt (Nat.zero_lt_of_lt hcount))
    obtain ⟨hup, hchain⟩ := List.isChain_cons_cons.1 hchain
    rw [goOn, if_pos (hw.letsGo_iff.2 (hopen _ List.mem_cons_self)), hup]
    refine ih (current_mk g b) hchain (fun n hn => hopen n (List.mem_cons_of_mem _ hn)) ?_ ?_
    · rwa [List.getLast_cons (List.cons_ne_nil b l)] at htop
    · simpa using hcount

theorem mem_scopes_of_parent? {a b : String} (h : g.parent? a = some b) :
    a ∈ g.scopes.map Prod.fst := by
  obtain ⟨s, hs, -⟩ := Option.bind_eq_some_iff.1 h
  obtain ⟨l₁, l₂, hsplit, -⟩ := List.lookup_eq_some_iff.1 hs
  rw [hsplit]
  simp

/-- A wait comes to its end in a graph that is open from its scope upwards. -/
theorem await?_eq_none (hw : g.Current w) (h : Clear g.parent? g.Open w.id) : g.await? w = none := by
  obtain ⟨l, hnodup, habove, hchain, htop⟩ := h.exists_path
  refine goOn_of_path hw hchain (fun n hn => (h.above (habove n hn)).here) htop ?_
  -- All but the last one have a parent and are live.
  have hlive : (w.id :: l).dropLast ⊆ g.scopes.map Prod.fst := by
    intro n hn
    obtain ⟨i, hi, rfl⟩ := List.getElem_of_mem hn
    rw [List.getElem_dropLast]
    have hi' : i + 1 < (w.id :: l).length := by
      rw [List.length_dropLast] at hi
      omega
    exact mem_scopes_of_parent? (List.isChain_iff_getElem.1 hchain i hi')
  have hlength := (hnodup.sublist (List.dropLast_sublist _)).length_le_of_subset hlive
  rw [List.length_dropLast, List.length_map, List.length_cons] at hlength
  exact Nat.lt_succ_of_le hlength

/-! ### Graphs that agree above a scope -/

theorem upwards_congr {id : String} (h : ∀ n, Above g.parent? id n → g'.scope? n = g.scope? n)
    (count : Nat) : g'.upwards count id = g.upwards count id := by
  induction count generalizing id with
  | zero => rfl
  | succ count ih =>
    rw [upwards, upwards, h id ReflTransGen.refl]
    cases hs : g.scope? id with
    | none => rfl
    | some s =>
      cases hp : s.parent with
      | none => simp [hp]
      | some p =>
        have hup : g.parent? id = some p := Option.bind_eq_some_iff.2 ⟨s, hs, hp⟩
        have hrest := ih fun n hn => h n (ReflTransGen.head hup hn)
        simp [hp, hrest]

theorem get?_congr {id : String} (hsize : g'.size = g.size)
    (h : ∀ n, Above g.parent? id n → g'.scope? n = g.scope? n) (name : String) :
    g'.get? id name = g.get? id name := by
  unfold get? path
  rw [hsize, upwards_congr h]

end ScopeGraph

end LiveNotes
