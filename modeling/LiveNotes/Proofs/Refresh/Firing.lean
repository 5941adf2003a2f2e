import LiveNotes.Refresh.Auto
import Mathlib.Data.List.Pairwise

/-! When a timer goes off, read off from what it is told. Each trigger has a time at which the timer is
to go off on its account, by the delay that holds when it comes; it does so unless another trigger comes
first. No other thing makes the timer go off, and later changes of the delay do not matter. -/

namespace LiveNotes.Debouncer

/-- What a timer is told. -/
inductive Signal where
  | trigger
  | delay (ms : Nat)
  deriving DecidableEq, Repr

/-- Signals with their times. -/
abbrev Schedule := List (Nat × Signal)

def take : Signal → Debouncer → Debouncer
  | .trigger, d => d.trigger
  | .delay ms, d => d.setDelay ms

/-- When the timer goes off from `now` up to the time `limit`, if it is told what a schedule says. -/
def follow (limit : Nat) : Nat → Schedule → Debouncer → List Nat
  | now, [], d => (d.run now limit).1
  | now, (t, e) :: l, d =>
    if t ≤ limit then (d.run now t).1 ++ follow limit t l (take e (d.run now t).2)
    else (d.run now limit).1

def triggers (l : Schedule) : List Nat := (l.filter (·.2 = .trigger)).map (·.1)

/-- The delay that a signal at the time `t` finds, if it was `delay` in the beginning. -/
def delayAt (delay : Nat) (l : Schedule) (t : Nat) : Nat :=
  ((l.filter (·.1 < t)).filterMap fun
    | (_, .delay ms) => some ms
    | (_, .trigger) => none).getLast?.getD delay

/-- The time to go off for a trigger at the time `t`. -/
def deadlineOf (delay : Nat) (l : Schedule) (t : Nat) : Nat := t + delayAt delay l t

/-- No other trigger comes up to the time to go off for the one at `t`. -/
def Quiet (delay : Nat) (l : Schedule) (t : Nat) : Prop :=
  ∀ s ∈ triggers l, t < s → deadlineOf delay l t < s

instance (delay : Nat) (l : Schedule) (t : Nat) : Decidable (Quiet delay l t) :=
  inferInstanceAs (Decidable (∀ s ∈ triggers l, t < s → deadlineOf delay l t < s))

/-- The times to go off for all triggers that no other one follows too soon. -/
def due (delay : Nat) (l : Schedule) : List Nat :=
  ((triggers l).filter (Quiet delay l ·)).map (deadlineOf delay l)

/-- Some trigger comes just when the timer is to go off for an earlier one. -/
def Collides (delay : Nat) (l : Schedule) : Prop :=
  ∃ t ∈ triggers l, t < deadlineOf delay l t ∧ deadlineOf delay l t ∈ triggers l ∧
    ∀ s ∈ triggers l, t < s → deadlineOf delay l t ≤ s

instance (delay : Nat) (l : Schedule) : Decidable (Collides delay l) :=
  inferInstanceAs (Decidable (∃ t ∈ triggers l, _))

/-! ### The timer by itself -/

section

variable {d : Debouncer} {now limit count : Nat}

/-- When the timer is to go off once it has seen all triggers. -/
def armed (d : Debouncer) (now : Nat) : Option Nat :=
  if 0 < d.ticks then some (now + d.delay) else d.deadline

theorem armed_takeTick (d : Debouncer) (now : Nat) :
    (d.takeTick now).armed now = some (now + d.delay) := by
  unfold armed
  split <;> rfl

theorem runFor_of_seen (hd : d.ticks = 0) (hc : d.work ≤ count) :
    runFor limit count now d =
      ((d.deadline.filter (· ≤ limit)).toList,
        { d with deadline := d.deadline.filter (limit < ·) }) := by
  obtain ⟨delay, ticks, deadline⟩ := d
  obtain rfl : ticks = 0 := hd
  cases deadline with
  | none => cases count <;> rfl
  | some t =>
    obtain ⟨count, rfl⟩ : ∃ k, count = k + 1 := Nat.exists_eq_add_of_le' hc
    by_cases ht : t ≤ limit
    · cases count <;> simp [runFor, fire, Option.filter_some, ht, Nat.not_lt.2 ht]
    · simp [runFor, Option.filter_some, ht, Nat.not_le.1 ht]

/-- A run sees all triggers, and then goes off when it is time. -/
theorem run_eq (d : Debouncer) (now limit : Nat) :
    d.run now limit =
      (((d.armed now).filter (· ≤ limit)).toList,
        { d with ticks := 0, deadline := (d.armed now).filter (limit < ·) }) := by
  have hrun : ∀ (ticks count : Nat) (d : Debouncer), d.ticks = ticks → d.work ≤ count →
      runFor limit count now d =
        (((d.armed now).filter (· ≤ limit)).toList,
          { d with ticks := 0, deadline := (d.armed now).filter (limit < ·) }) := by
    intro ticks
    induction ticks with
    | zero =>
      intro count d hd hc
      rw [runFor_of_seen hd hc, armed, hd]
      rfl
    | succ ticks ih =>
      intro count d hd hc
      have hpos : 0 < d.ticks := by omega
      have hwork := work_takeTick d now hpos
      obtain ⟨count, rfl⟩ : ∃ k, count = k + 1 := Nat.exists_eq_add_of_le' (by omega)
      rw [runFor, if_pos hpos, ih count (d.takeTick now) (by simp [takeTick, hd]) (by omega),
        armed_takeTick, armed, if_pos hpos]
      rfl
  exact hrun d.ticks d.work d rfl (Nat.le_refl _)

theorem armed_trigger (d : Debouncer) (now t : Nat) :
    armed (take .trigger (d.run now t).2) t = some (t + d.delay) := by
  simp [run_eq, take, trigger, armed]

theorem armed_delay (d : Debouncer) (now t ms : Nat) :
    armed (take (.delay ms) (d.run now t).2) t = (d.armed now).filter (t < ·) := by
  simp [run_eq, take, setDelay, armed]

end

/-! ### What a schedule says -/

section

variable {delay ms t s limit : Nat} {l : Schedule} {pending : Option Nat}

@[simp] theorem triggers_nil : triggers [] = [] := rfl

@[simp] theorem triggers_trigger : triggers ((t, .trigger) :: l) = t :: triggers l := rfl

@[simp] theorem triggers_delay : triggers ((t, .delay ms) :: l) = triggers l := rfl

theorem lt_of_mem_triggers (hl : ∀ x ∈ l, t < x.1) (hs : s ∈ triggers l) : t < s := by
  obtain ⟨x, hx, rfl⟩ := List.mem_map.1 hs
  exact hl x (List.mem_filter.1 hx).1

@[simp] theorem deadlineOf_trigger :
    deadlineOf delay ((t, .trigger) :: l) s = deadlineOf delay l s := by
  by_cases h : t < s <;> simp [deadlineOf, delayAt, h]

theorem deadlineOf_delay (h : t < s) :
    deadlineOf delay ((t, .delay ms) :: l) s = deadlineOf ms l s := by
  simp [deadlineOf, delayAt, h, List.getLast?_cons]

/-- The first signal finds the delay as it was. -/
theorem deadlineOf_of_le (hl : ∀ x ∈ l, t ≤ x.1) : deadlineOf delay l t = t + delay := by
  have hnone : l.filter (·.1 < t) = [] := by
    rw [List.filter_eq_nil_iff]
    intro x hx
    simpa using hl x hx
  simp [deadlineOf, delayAt, hnone]

/-- All triggers come after the given time. -/
def Precedes (t : Nat) (l : Schedule) : Prop := ∀ s ∈ triggers l, t < s

instance (t : Nat) (l : Schedule) : Decidable (Precedes t l) :=
  inferInstanceAs (Decidable (∀ s ∈ triggers l, t < s))

/-- The times to go off if the timer is running for the time `pending` already. -/
def dueFrom (pending : Option Nat) (delay : Nat) (l : Schedule) : List Nat :=
  (pending.filter (Precedes · l)).toList ++ due delay l

theorem due_trigger (hl : ∀ x ∈ l, t < x.1) :
    due delay ((t, .trigger) :: l) = dueFrom (some (t + delay)) delay l := by
  have hd : deadlineOf delay l t = t + delay :=
    deadlineOf_of_le fun x hx => Nat.le_of_lt (hl x hx)
  have hfirst : Quiet delay ((t, .trigger) :: l) t ↔ Precedes (t + delay) l := by
    simp only [Quiet, triggers_trigger, List.forall_mem_cons, Nat.lt_irrefl, false_implies, true_and,
      deadlineOf_trigger, hd]
    exact forall₂_congr fun s hs => by simp [lt_of_mem_triggers hl hs]
  have hrest : ∀ s ∈ triggers l, Quiet delay ((t, .trigger) :: l) s ↔ Quiet delay l s := by
    intro s hs
    have hts := lt_of_mem_triggers hl hs
    simp [Quiet, Nat.not_lt.2 (Nat.le_of_lt hts)]
  have hfilter : (triggers l).filter (Quiet delay ((t, .trigger) :: l) ·) =
      (triggers l).filter (Quiet delay l ·) :=
    List.filter_congr fun s hs => by simp only [hrest s hs]
  have hmap : deadlineOf delay ((t, .trigger) :: l) = deadlineOf delay l :=
    funext fun s => deadlineOf_trigger
  rw [due, triggers_trigger, List.filter_cons, hfilter, hmap]
  by_cases hq : Precedes (t + delay) l
  · simp [hfirst.2 hq, hq, hd, due, dueFrom, Option.filter_some]
  · simp [mt hfirst.1 hq, hq, due, dueFrom, Option.filter_some]

theorem due_delay (hl : ∀ x ∈ l, t < x.1) : due delay ((t, .delay ms) :: l) = due ms l := by
  have hd : ∀ s ∈ triggers l, deadlineOf delay ((t, .delay ms) :: l) s = deadlineOf ms l s :=
    fun s hs => deadlineOf_delay (lt_of_mem_triggers hl hs)
  have hfilter : (triggers l).filter (Quiet delay ((t, .delay ms) :: l) ·) =
      (triggers l).filter (Quiet ms l ·) :=
    List.filter_congr fun s hs => decide_eq_decide.2 (by rw [Quiet, hd s hs, triggers_delay, Quiet])
  rw [due, triggers_delay, hfilter]
  exact List.map_congr_left fun s hs => hd s (List.mem_filter.1 hs).1

/-- A timer that runs does not go off just when a trigger comes, and neither does a later one. -/
def Free (pending : Option Nat) (delay : Nat) (l : Schedule) : Prop :=
  ¬ Collides delay l ∧ ∀ d ∈ pending, d ∈ triggers l → ∃ s ∈ triggers l, s < d

theorem free_trigger (hl : ∀ x ∈ l, t < x.1) (h : Free pending delay ((t, .trigger) :: l)) :
    Free (some (t + delay)) delay l := by
  have hd : deadlineOf delay l t = t + delay :=
    deadlineOf_of_le fun x hx => Nat.le_of_lt (hl x hx)
  refine ⟨fun ⟨s, hs, hlt, hmem, hle⟩ => h.1 ⟨s, ?_, ?_, ?_, ?_⟩, fun d hd' hmem => ?_⟩
  · exact List.mem_cons_of_mem t hs
  · rwa [deadlineOf_trigger]
  · rw [deadlineOf_trigger]
    exact List.mem_cons_of_mem t hmem
  · rw [deadlineOf_trigger, triggers_trigger, List.forall_mem_cons]
    have hts := lt_of_mem_triggers hl hs
    exact ⟨fun hst => absurd hst (Nat.not_lt.2 (Nat.le_of_lt hts)), hle⟩
  · obtain rfl : t + delay = d := by simpa using hd'
    by_contra hnone
    refine h.1 ⟨t, List.mem_cons_self, ?_, ?_, ?_⟩
    · rw [deadlineOf_trigger, hd]
      exact lt_of_mem_triggers hl hmem
    · rw [deadlineOf_trigger, hd]
      exact List.mem_cons_of_mem t hmem
    · rw [deadlineOf_trigger, hd, triggers_trigger, List.forall_mem_cons]
      refine ⟨fun htt => absurd htt (Nat.lt_irrefl t), fun s hs _ => ?_⟩
      exact Nat.not_lt.1 fun hlt => hnone ⟨s, hs, hlt⟩

theorem free_delay (hl : ∀ x ∈ l, t < x.1) (h : Free pending delay ((t, .delay ms) :: l)) :
    Free (pending.filter (t < ·)) ms l := by
  refine ⟨fun ⟨s, hs, hlt, hmem, hle⟩ => h.1 ⟨s, hs, ?_⟩, fun d hd hmem => ?_⟩
  · rw [deadlineOf_delay (lt_of_mem_triggers hl hs)]
    exact ⟨hlt, hmem, hle⟩
  · exact h.2 d (Option.filter_eq_some_iff.1 hd).1 hmem

theorem dueFrom_trigger (hl : ∀ x ∈ l, t < x.1) (h : Free pending delay ((t, .trigger) :: l)) :
    dueFrom pending delay ((t, .trigger) :: l) =
      (pending.filter (· ≤ t)).toList ++ dueFrom (some (t + delay)) delay l := by
  rw [dueFrom, due_trigger hl]
  congr 2
  cases pending with
  | none => rfl
  | some d =>
    have hne : d ≠ t := by
      rintro rfl
      obtain ⟨s, hs, hlt⟩ := h.2 d rfl List.mem_cons_self
      rcases List.mem_cons.1 hs with rfl | hs
      · exact Nat.lt_irrefl s hlt
      · exact Nat.lt_asymm hlt (lt_of_mem_triggers hl hs)
    have hiff : Precedes d ((t, .trigger) :: l) ↔ d ≤ t := by
      rw [Precedes, triggers_trigger, List.forall_mem_cons]
      refine ⟨fun hp => Nat.le_of_lt hp.1, fun hle => ?_⟩
      have hlt := Nat.lt_of_le_of_ne hle hne
      exact ⟨hlt, fun s hs => Nat.lt_trans hlt (lt_of_mem_triggers hl hs)⟩
    simp only [Option.filter_some, hiff]

theorem dueFrom_delay (hl : ∀ x ∈ l, t < x.1) :
    dueFrom pending delay ((t, .delay ms) :: l) =
      (pending.filter (· ≤ t)).toList ++ dueFrom (pending.filter (t < ·)) ms l := by
  rw [dueFrom, dueFrom, due_delay hl, ← List.append_assoc]
  congr 1
  cases pending with
  | none => rfl
  | some d =>
    by_cases hle : d ≤ t
    · have hp : Precedes d ((t, .delay ms) :: l) := fun s hs =>
        Nat.lt_of_le_of_lt hle (lt_of_mem_triggers hl hs)
      simp [Option.filter_some, hp, hle, Nat.not_lt.2 hle]
    · have hp : Precedes d ((t, .delay ms) :: l) ↔ Precedes d l := Iff.rfl
      simp [Option.filter_some, hle, Nat.not_le.1 hle, hp]

/-- Before any signal comes, the timer goes off only if it is running. -/
theorem filter_dueFrom (hl : ∀ x ∈ l, limit < x.1) :
    (dueFrom pending delay l).filter (· ≤ limit) = (pending.filter (· ≤ limit)).toList := by
  have hnone : (due delay l).filter (· ≤ limit) = [] := by
    rw [List.filter_eq_nil_iff]
    intro d hd
    obtain ⟨s, hs, rfl⟩ := List.mem_map.1 hd
    have hlt := lt_of_mem_triggers hl (List.mem_filter.1 hs).1
    rw [decide_eq_true_eq, deadlineOf]
    omega
  rw [dueFrom, List.filter_append, hnone, List.append_nil]
  cases pending with
  | none => rfl
  | some d =>
    by_cases hle : d ≤ limit
    · have hp : Precedes d l := fun s hs =>
        Nat.lt_of_le_of_lt hle (lt_of_mem_triggers hl hs)
      simp [Option.filter_some, hp, hle]
    · by_cases hp : Precedes d l <;> simp [Option.filter_some, hp, hle]

end

/-! ### All signals -/

section

variable {l l₁ l₂ : Schedule} {limit : Nat}

/-- A signal makes the timer do what the rest of the schedule is read by. -/
theorem dueFrom_step {t : Nat} (hl : ∀ x ∈ l, t < x.1) (e : Signal) (now : Nat) (d : Debouncer)
    (h : Free (d.armed now) d.delay ((t, e) :: l)) :
    Free ((take e (d.run now t).2).armed t) (take e (d.run now t).2).delay l ∧
      dueFrom (d.armed now) d.delay ((t, e) :: l) = (d.run now t).1 ++
        dueFrom ((take e (d.run now t).2).armed t) (take e (d.run now t).2).delay l := by
  cases e with
  | trigger =>
    have hdelay : (take .trigger (d.run now t).2).delay = d.delay := by rw [run_eq]; rfl
    rw [armed_trigger, hdelay, dueFrom_trigger hl h, run_eq]
    exact ⟨free_trigger hl h, rfl⟩
  | delay ms =>
    have hdelay : (take (.delay ms) (d.run now t).2).delay = ms := rfl
    rw [armed_delay, hdelay, dueFrom_delay hl, run_eq]
    exact ⟨free_delay hl h, rfl⟩

/-- A timer in any state goes off at the times that the schedule says. -/
theorem follow_eq (hl : (l.map (·.1)).Pairwise (· < ·)) (now : Nat) (d : Debouncer)
    (h : Free (d.armed now) d.delay l) :
    follow limit now l d = (dueFrom (d.armed now) d.delay l).filter (· ≤ limit) := by
  induction l generalizing now d with
  | nil => rw [follow, run_eq, filter_dueFrom (by simp)]
  | cons x l ih =>
    obtain ⟨t, e⟩ := x
    rw [List.map_cons, List.pairwise_cons] at hl
    have hlt : ∀ x ∈ l, t < x.1 := fun x hx => hl.1 x.1 (List.mem_map_of_mem hx)
    obtain ⟨hfree, hdue⟩ := dueFrom_step hlt e now d h
    unfold follow
    split
    · have hrun : (d.run now t).1.filter (· ≤ limit) = (d.run now t).1 := by
        rw [run_eq, List.filter_eq_self]
        intro s hs
        have hst := (Option.filter_eq_some_iff.1 (Option.mem_toList.1 hs)).2
        rw [decide_eq_true_eq] at hst ⊢
        omega
      rw [hdue, List.filter_append, hrun, ih hl.2 t _ hfree]
    · rw [run_eq, filter_dueFrom]
      rw [List.forall_mem_cons]
      exact ⟨by omega, fun x hx => by have := hlt x hx; omega⟩

/-- Changes of the delay alone do nothing to a timer. -/
theorem follow_of_precedes (hl : Precedes limit l) (now : Nat) (d : Debouncer) :
    follow limit now l d = (d.run now limit).1 := by
  induction l generalizing now d with
  | nil => rfl
  | cons x l ih =>
    obtain ⟨t, e⟩ := x
    unfold follow
    split
    · cases e with
      | trigger => exact absurd (hl t List.mem_cons_self) (by omega)
      | delay ms =>
        rw [ih hl, run_eq _ t limit, armed_delay, run_eq, run_eq]
        cases d.armed now with
        | none => rfl
        | some s =>
          by_cases hs : s ≤ t
          · have hs' : s ≤ limit := by omega
            simp [Option.filter_some, hs, hs', Nat.not_lt.2 hs]
          · simp [Option.filter_some, hs, Nat.not_le.1 hs]
    · rfl

theorem follow_delay (hl : Precedes limit l₂) (s ms now : Nat) (d : Debouncer) :
    follow limit now (l₁ ++ (s, .delay ms) :: l₂) d = follow limit now (l₁ ++ l₂) d := by
  induction l₁ generalizing now d with
  | nil =>
    have hl' : Precedes limit ((s, .delay ms) :: l₂) := hl
    rw [List.nil_append, List.nil_append, follow_of_precedes hl', follow_of_precedes hl]
  | cons x l ih =>
    obtain ⟨t, e⟩ := x
    simp only [List.cons_append, follow, ih]

/-- A timer goes off once for each trigger that no other one follows within the delay, when the delay
is over, and at no other time. A change of the delay leaves all times as they are up to the next
trigger. -/
theorem follow_eq_due (delay : Nat) (hl : (l.map (·.1)).Pairwise (· < ·)) (hc : ¬ Collides delay l)
    (limit : Nat) :
    follow limit 0 l { delay := delay } = (due delay l).filter (· ≤ limit) ∧
      ∀ l₁ s ms l₂, l = l₁ ++ (s, .delay ms) :: l₂ → Precedes limit l₂ →
        follow limit 0 l { delay := delay } = follow limit 0 (l₁ ++ l₂) { delay := delay } := by
  refine ⟨follow_eq hl 0 { delay := delay } ⟨hc, fun d hd => nomatch hd⟩, ?_⟩
  rintro l₁ s ms l₂ rfl hl₂
  exact follow_delay hl₂ s ms 0 _

/-- The second of three triggers overtakes the first one, after the delay has become shorter. While the
timer runs for it the delay becomes longer, which counts for the third one only. -/
def changedTwice : Schedule :=
  [(0, .trigger), (100, .delay 50), (200, .trigger), (230, .delay 400), (300, .trigger)]

theorem follow_eq_due_changed :
    (changedTwice.map (·.1)).Pairwise (· < ·) ∧ ¬ Collides 300 changedTwice ∧
      follow 1000 0 changedTwice { delay := 300 } = [250, 700] ∧
      (follow 1000 0 changedTwice { delay := 300 } = (due 300 changedTwice).filter (· ≤ 1000) ∧
        ∀ l₁ s ms l₂, changedTwice = l₁ ++ (s, .delay ms) :: l₂ → Precedes 1000 l₂ →
          follow 1000 0 changedTwice { delay := 300 } =
            follow 1000 0 (l₁ ++ l₂) { delay := 300 }) :=
  ⟨by decide, by decide, by decide, follow_eq_due 300 (by decide) (by decide) 1000⟩

end

end LiveNotes.Debouncer
