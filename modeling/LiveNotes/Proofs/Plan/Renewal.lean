import LiveNotes.Fragment.Plan
import Mathlib.Data.List.Infix
import Mathlib.Order.Basic

/-! When one pass gives a fragment a new key, said of the two documents alone. A fragment is renewed
when it is new, when the cursor has left it, and otherwise only if no cursor is in it or before it: then
by a change of its own, or by one of statements before it. -/

namespace LiveNotes.Plan

variable {newKey : KeySource} {drawn : Nat}

/-- What the output of the fragment at an index is made from. -/
def codeAt (fs : List Fragment) (i : Nat) : Option (FragmentKind × String) :=
  fs[i]?.map fun f => (f.kind, f.content)

def cursorAt (fs : List Fragment) (i : Nat) : Bool := (fs[i]?.map (·.cursorInside)).getD false

def statementsAt (fs : List Fragment) (i : Nat) : Bool :=
  (fs[i]?.map (·.kind == .blockStatement)).getD false

/-- The cursor is in the fragment at an index or in one before it. -/
def Held (now : List Fragment) (i : Nat) : Prop := ∃ j ≤ i, cursorAt now j = true

def Left (before now : List Fragment) (i : Nat) : Prop :=
  cursorAt before i = true ∧ cursorAt now i = false

def Changed (before now : List Fragment) (i : Nat) : Prop := codeAt before i ≠ codeAt now i

/-- There are or were statements at an index, which all that follows them depends on. -/
def Stirs (before now : List Fragment) (i : Nat) : Prop :=
  (statementsAt before i = true ∨ statementsAt now i = true) ∧
    (Left before now i ∨ Changed before now i ∧ ¬ Held now i)

/-- The fragment at an index needs a new key, given the fragments of the pass before. -/
def Renewed (before now : List Fragment) (i : Nat) : Prop :=
  before.length ≤ i ∨ Left before now i ∨
    ¬ Held now i ∧ (Changed before now i ∨ ∃ j < i, Stirs before now j)

instance (now : List Fragment) (i : Nat) : Decidable (Held now i) :=
  inferInstanceAs (Decidable (∃ j ≤ i, cursorAt now j = true))

instance (before now : List Fragment) (i : Nat) : Decidable (Left before now i) :=
  inferInstanceAs (Decidable (_ ∧ _))

instance (before now : List Fragment) (i : Nat) : Decidable (Changed before now i) :=
  inferInstanceAs (Decidable (_ ≠ _))

instance (before now : List Fragment) (i : Nat) : Decidable (Stirs before now i) :=
  inferInstanceAs (Decidable (_ ∧ _))

instance (before now : List Fragment) (i : Nat) : Decidable (Renewed before now i) :=
  inferInstanceAs (Decidable (_ ∨ _))

/-! ### A pass by index -/

/-- What the fragments before an index demand of the one there. -/
def demandAt (before : List CacheEntry) (fs : List Fragment) (d : Demand) : Nat → Demand
  | 0 => d
  | i + 1 =>
    match fs[i]? with
    | some f => (decide (demandAt before fs d i) before[i]? f).2
    | none => demandAt before fs d i

theorem demandAt_cons (before : List CacheEntry) (f : Fragment) (fs : List Fragment) (d : Demand)
    (i : Nat) :
    demandAt before (f :: fs) d (i + 1) =
      demandAt before.tail fs (decide d before.head? f).2 i := by
  induction i with
  | zero => simp only [demandAt, List.getElem?_cons_zero, List.head?_eq_getElem?]
  | succ i ih =>
    rw [demandAt, ih, List.getElem?_cons_succ, ← List.getElem?_tail]
    rfl

theorem le_walk (newKey : KeySource) (drawn : Nat) (d : Demand) (before : List CacheEntry)
    (fs : List Fragment) : drawn ≤ (walk newKey drawn d before fs).2 := by
  induction fs generalizing drawn d before with
  | nil => exact le_rfl
  | cons f fs ih =>
    have h : ∀ kept : Option String, drawn ≤ if kept.isNone then drawn + 1 else drawn := by
      intro kept
      split <;> omega
    exact (h _).trans (ih _ _ _)

/-- The key that a pass decides on for a fragment is the one it keeps, or one that the pass draws. -/
theorem getElem?_walk (newKey : KeySource) (drawn : Nat) (before : List CacheEntry) (d : Demand)
    {fs : List Fragment} {i : Nat} {f : Fragment} (hf : fs[i]? = some f) :
    ∃ kept n, kept = (decide (demandAt before fs d i) before[i]? f).1 ∧ drawn ≤ n ∧
      (kept = none → n < (walk newKey drawn d before fs).2) ∧
      (walk newKey drawn d before fs).1[i]? =
        some (⟨f.kind, f.content, kept.getD (newKey n), f.cursorInside⟩,
          ⟨kept.getD (newKey n), kept.isNone, f.cursorInside⟩) := by
  induction fs generalizing drawn d before i with
  | nil => simp at hf
  | cons g fs ih =>
    cases i with
    | zero =>
      obtain rfl : g = f := by simpa using hf
      refine ⟨_, drawn, rfl, le_rfl, fun hk => ?_, ?_⟩
      · simp only [demandAt, ← List.head?_eq_getElem?] at hk
        have := le_walk newKey (drawn + 1) (decide d before.head? g).2 before.tail fs
        simpa only [walk, hk, Option.isNone_none, if_true] using Nat.lt_of_succ_le this
      · simp only [demandAt, ← List.head?_eq_getElem?]
        rfl
    | succ i =>
      obtain ⟨kept, n, hkept, hn, hlast, h⟩ :=
        ih (if (decide d before.head? g).1.isNone then drawn + 1 else drawn) before.tail
          (decide d before.head? g).2 (by simpa using hf)
      refine ⟨kept, n, ?_, le_trans (by split <;> omega) hn, hlast, h⟩
      rw [hkept, demandAt_cons, List.getElem?_tail]

/-! ### What is demanded -/

/-- A cache that holds what is to be remembered of a document. -/
def Remembers (before : List CacheEntry) (old : List Fragment) : Prop :=
  before.map (fun e => (e.kind, e.content, e.cursorInside)) =
    old.map fun f => (f.kind, f.content, f.cursorInside)

theorem Remembers.length_eq {before : List CacheEntry} {old : List Fragment}
    (h : Remembers before old) : before.length = old.length := by
  simpa using congrArg List.length h

theorem Remembers.getElem? {before : List CacheEntry} {old : List Fragment} {i : Nat}
    {e : CacheEntry} (h : Remembers before old) (he : before[i]? = some e) :
    ∃ f, old[i]? = some f ∧ e.kind = f.kind ∧ e.content = f.content ∧
      e.cursorInside = f.cursorInside := by
  have hi := congrArg (·[i]?) h
  simp only [List.getElem?_map, he, Option.map_some] at hi
  obtain ⟨f, hf, hef⟩ := Option.map_eq_some_iff.1 hi.symm
  simp only [Prod.mk.injEq] at hef
  exact ⟨f, hf, hef.1.symm, hef.2.1.symm, hef.2.2.symm⟩

theorem keep_decide (d : Demand) (before : Option CacheEntry) (f : Fragment) :
    (decide d before f).2.keep = (d.keep || f.cursorInside) := by
  unfold decide
  grind

theorem keep_demandAt (before : List CacheEntry) (now : List Fragment) (i : Nat) :
    (demandAt before now {} i).keep = true ↔ ∃ j < i, cursorAt now j = true := by
  induction i with
  | zero => simp [demandAt]
  | succ i ih =>
    have hlast : (∃ j < i + 1, cursorAt now j = true) ↔
        (∃ j < i, cursorAt now j = true) ∨ cursorAt now i = true := by
      simp only [Nat.lt_succ_iff_lt_or_eq]
      grind
    rw [hlast, ← ih, demandAt]
    cases hf : now[i]? with
    | none => simp [cursorAt, hf]
    | some f => simp [cursorAt, hf, keep_decide]

theorem held_iff {before : List CacheEntry} {now : List Fragment} {i : Nat} {f : Fragment}
    (hf : now[i]? = some f) :
    Held now i ↔ ((demandAt before now {} i).keep || f.cursorInside) = true := by
  have hi : cursorAt now i = f.cursorInside := by simp [cursorAt, hf]
  rw [Bool.or_eq_true, keep_demandAt, ← hi]
  constructor
  · rintro ⟨j, hj, hc⟩
    rcases Nat.lt_or_eq_of_le hj with hlt | rfl
    · exact Or.inl ⟨j, hlt, hc⟩
    · exact Or.inr hc
  · rintro (⟨j, hj, hc⟩ | hc)
    · exact ⟨j, hj.le, hc⟩
    · exact ⟨i, le_rfl, hc⟩

section

variable {before : List CacheEntry} {old now : List Fragment} (hold : Remembers before old)

include hold

/-- What the code decides by the entry of a fragment, said by the fragments of both passes. -/
theorem decide_iff {i : Nat} {e : CacheEntry} {f : Fragment} (he : before[i]? = some e)
    (hf : now[i]? = some f) (d : Demand)
    (hkeep : Held now i ↔ (d.keep || f.cursorInside) = true) :
    ((decide d (some e) f).1 = none ↔
        Left old now i ∨ ¬ Held now i ∧ (Changed old now i ∨ d.renew = true)) ∧
      ((decide d (some e) f).1 ≠ none → (decide d (some e) f).1 = some e.key) ∧
      ((decide d (some e) f).2.renew = true ↔ d.renew = true ∨ Stirs old now i) := by
  obtain ⟨g, hg, hkind, hcontent, hcursor⟩ := hold.getElem? he
  have hleft : Left old now i ↔ (e.cursorInside && !f.cursorInside) = true := by
    simp [Left, cursorAt, hg, hf, hcursor]
  have hchanged : Changed old now i ↔ ¬ (e.kind == f.kind && e.content == f.content) = true := by
    simp [Changed, codeAt, hg, hf, hkind, hcontent]
  have hstir : Stirs old now i ↔ touchesStatements e.kind f.kind = true ∧
      (Left old now i ∨ Changed old now i ∧ ¬ Held now i) := by
    simp [Stirs, statementsAt, touchesStatements, hg, hf, hkind]
  rw [hstir, hleft, hchanged, hkeep]
  -- All is now said by the entry and the fragment, as the code says it.
  unfold decide
  grind

theorem renew_demandAt {i : Nat} (hb : i ≤ before.length) (hn : i ≤ now.length) :
    (demandAt before now {} i).renew = true ↔ ∃ j < i, Stirs old now j := by
  induction i with
  | zero => simp [demandAt]
  | succ i ih =>
    have hf : now[i]? = some now[i] := List.getElem?_eq_getElem hn
    have he : before[i]? = some before[i] := List.getElem?_eq_getElem hb
    have hlast : (∃ j < i + 1, Stirs old now j) ↔ (∃ j < i, Stirs old now j) ∨ Stirs old now i := by
      simp only [Nat.lt_succ_iff_lt_or_eq]
      grind
    rw [hlast, ← ih (by omega) (by omega), demandAt, hf, he]
    exact (decide_iff hold he hf _ (held_iff hf)).2.2

/-- A fragment keeps the key of its entry exactly if it need not be renewed. -/
theorem kept_iff {i : Nat} {f : Fragment} (hf : now[i]? = some f) :
    ((decide (demandAt before now {} i) before[i]? f).1 = none ↔ Renewed old now i) ∧
      (¬ Renewed old now i → (decide (demandAt before now {} i) before[i]? f).1 =
        before[i]?.map (·.key)) := by
  have hlen := hold.length_eq
  cases he : before[i]? with
  | none =>
    have hi : Renewed old now i := Or.inl (hlen ▸ List.getElem?_eq_none_iff.1 he)
    exact ⟨iff_of_true rfl hi, fun h => absurd hi h⟩
  | some e =>
    -- Entries before this one are there as well, so that the demand is known from both passes.
    have hb : i < before.length := (List.getElem?_eq_some_iff.1 he).1
    have hn : i < now.length := (List.getElem?_eq_some_iff.1 hf).1
    have h := decide_iff hold he hf (demandAt before now {} i) (held_iff hf)
    rw [renew_demandAt hold hb.le hn.le] at h
    have hiff : (decide (demandAt before now {} i) (some e) f).1 = none ↔ Renewed old now i := by
      rw [h.1, Renewed]
      have hnew : ¬ old.length ≤ i := by omega
      simp only [hnew, false_or]
    exact ⟨hiff, fun hr => h.2.1 fun hnone => hr (hiff.1 hnone)⟩

/-- The decision of a pass on a fragment: a new key if it is renewed, else the key of its entry. -/
theorem decision_planPass {i : Nat} {f : Fragment} (hf : now[i]? = some f) :
    ∃ d, (planPass newKey drawn before now).decisions[i]? = some d ∧
      (planPass newKey drawn before now).cache[i]?.map (·.key) = some d.key ∧
      (d.fresh = true ↔ Renewed old now i) ∧
      (Renewed old now i →
        ∃ n, drawn ≤ n ∧ n < (planPass newKey drawn before now).drawn ∧ d.key = newKey n) ∧
      (¬ Renewed old now i → before[i]?.map (·.key) = some d.key) := by
  obtain ⟨kept, n, hkept, hn, hlast, h⟩ := getElem?_walk newKey drawn before {} hf
  obtain ⟨hnone, hkeep⟩ := kept_iff hold hf
  rw [← hkept] at hnone hkeep
  refine ⟨_, by simp only [planPass, List.getElem?_map, h, Option.map_some]; rfl, ?_, ?_, ?_, ?_⟩
  · simp only [planPass, List.getElem?_map, h, Option.map_some]
  · rw [← hnone]
    exact Option.isNone_iff_eq_none
  · intro hr
    rw [hnone.2 hr]
    exact ⟨n, hn, hlast (hnone.2 hr), rfl⟩
  · intro hr
    rw [← hkeep hr]
    cases hk : kept with
    | none => exact absurd (hnone.1 hk) hr
    | some key => rfl

end

theorem remembers_planPass (before : List CacheEntry) (now : List Fragment) :
    Remembers (planPass newKey drawn before now).cache now := by
  apply List.ext_getElem?
  intro i
  cases hf : now[i]? with
  | none =>
    have hlen : (planPass newKey drawn before now).cache.length = now.length := by
      simp [planPass, length_walk]
    have hc : (planPass newKey drawn before now).cache[i]? = none := by
      rw [List.getElem?_eq_none_iff, hlen]
      exact List.getElem?_eq_none_iff.1 hf
    simp only [List.getElem?_map, hf, hc, Option.map_none]
  | some f =>
    obtain ⟨kept, n, -, -, -, h⟩ := getElem?_walk newKey drawn before {} hf
    simp only [planPass, List.getElem?_map, h, hf, Option.map_some]

end LiveNotes.Plan
