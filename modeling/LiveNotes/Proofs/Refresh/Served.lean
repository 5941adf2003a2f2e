import LiveNotes.Proofs.Refresh.Schedule

/-! Every change of files that is accepted is loaded, and nothing is loaded by itself without one. Changes go
from the queue of the timer to a firing, from there to an action, to a request and to a load; at each of these
places it is known which firing stands behind what is there, and something is left there until the next place
is reached. -/

namespace LiveNotes.Refresh

variable {V : Type}

/-- A change was accepted since the last firing, or before and left unseen by it. -/
def SinceFiring (last : Option Nat) (left : List Nat) (t : Nat) : Prop := t ∈ left ∨ ∀ p ∈ last, p < t

/-- A firing has seen a change, and only such as no firing has seen before. -/
structure Firing.Warranted (f : Firing) (accepted : List Nat) : Prop where
  changed : f.seen ≠ []
  since : ∀ t ∈ f.seen, t ∈ accepted ∧ t < f.time ∧ SinceFiring f.previous f.left t

namespace Watch

variable {w w' : Watch V}

/-- Nothing is left to be done: no trigger is queued, no timer is armed, no action waits and nothing loads. -/
structure Quiet (w : Watch V) : Prop where
  ticks : w.auto.debouncer.ticks = 0
  deadline : w.auto.debouncer.deadline = none
  actions : w.auto.actions = 0
  inFlight : w.auto.coordinator.inFlight = none

/-- A load has begun after the change that was accepted at a time. -/
def LoadedSince (w : Watch V) (t : Nat) : Prop := ∃ l, w.loads.getLast? = some l ∧ t < l.time

/-- A firing whose action found refreshing turned on. -/
def FoundOn (w : Watch V) (f : Firing) : Prop := f ∈ w.firings ∧ (f, true) ∈ w.looks

/-! ### The timer -/

structure TimerKept (w : Watch V) : Prop where
  ticks : w.queued.length = w.auto.debouncer.ticks
  armed : w.auto.debouncer.deadline.isSome = true → w.seen ≠ []
  accepted : ∀ t ∈ w.accepted, t < w.time
  since : ∀ t ∈ w.queued ++ w.seen, t ∈ w.accepted ∧ SinceFiring w.lastFiring? w.left t
  firings : ∀ f ∈ w.firings, f.time < w.time ∧ f.Warranted w.accepted

theorem foldl_trigger (d : Debouncer) (paths : List String) :
    paths.foldl (fun d _ => d.trigger) d = { d with ticks := d.ticks + paths.length } := by
  induction paths generalizing d with
  | nil => rfl
  | cons path paths ih =>
    rw [List.foldl_cons, ih, Debouncer.trigger, List.length_cons, Nat.add_right_comm, Nat.add_assoc]

theorem debouncer_accept (w : Watch V) (event : FileEvent) : (w.accept event).auto.debouncer =
    { w.auto.debouncer with ticks := w.auto.debouncer.ticks + (w.auto.duePaths event).length } :=
  foldl_trigger _ _

theorem Warranted.mono {f : Firing} {accepted more : List Nat} (h : f.Warranted accepted) :
    f.Warranted (accepted ++ more) :=
  ⟨h.changed, fun t ht => ⟨List.mem_append_left more (h.since t ht).1, (h.since t ht).2⟩⟩

/-- What the timer and its history are. -/
def timerPart (w : Watch V) : List Nat × List Nat × List Nat × List Nat × List Firing × Nat × Option Nat :=
  (w.queued, w.seen, w.left, w.accepted, w.firings, w.auto.debouncer.ticks, w.auto.debouncer.deadline)

namespace TimerKept

theorem congr (h : TimerKept w) (hpart : w'.timerPart = w.timerPart) :
    TimerKept { w' with time := w.time + 1 } := by
  simp only [timerPart, Prod.mk.injEq] at hpart
  obtain ⟨hqueued, hseen, hleft, haccepted, hfirings, hticks, hdeadline⟩ := hpart
  refine ⟨?_, ?_, ?_, ?_, ?_⟩
  · simpa only [hqueued, hticks] using h.ticks
  · simpa only [hseen, hdeadline] using h.armed
  · simpa only [haccepted] using fun t ht => Nat.lt_succ_of_lt (h.accepted t ht)
  · simpa only [lastFiring?, hqueued, hseen, hleft, haccepted, hfirings] using h.since
  · simpa only [haccepted, hfirings] using fun f hf => ⟨Nat.lt_succ_of_lt (h.firings f hf).1, (h.firings f hf).2⟩

theorem lastFiring_lt (h : TimerKept w) : ∀ p ∈ w.lastFiring?, p < w.time := by
  intro p hp
  obtain ⟨f, hf, rfl⟩ := Option.map_eq_some_iff.1 hp
  exact (h.firings f (List.mem_of_getLast? hf)).1

theorem accept (h : TimerKept w) (event : FileEvent) :
    TimerKept { w.accept event with time := w.time + 1 } := by
  have htimes : ∀ t ∈ (w.auto.duePaths event).map fun _ => w.time, t = w.time := by simp
  refine ⟨?_, ?_, ?_, ?_, ?_⟩
  · change (w.queued ++ _).length = (w.accept event).auto.debouncer.ticks
    rw [debouncer_accept, List.length_append, List.length_map, h.ticks]
  · change (w.accept event).auto.debouncer.deadline.isSome = true → w.seen ≠ []
    rw [debouncer_accept]
    exact h.armed
  · intro t ht
    rcases List.mem_append.1 ht with ht | ht
    · exact Nat.lt_succ_of_lt (h.accepted t ht)
    · exact Nat.lt_succ_of_le (Nat.le_of_eq (htimes t ht))
  · intro t ht
    have hcases : t ∈ w.queued ++ w.seen ∨ t ∈ (w.auto.duePaths event).map fun _ => w.time := by
      rcases List.mem_append.1 ht with hqueued | hseen
      · exact (List.mem_append.1 hqueued).imp_left (List.mem_append_left w.seen)
      · exact .inl (List.mem_append_right w.queued hseen)
    rcases hcases with hold | hnew
    · exact ⟨List.mem_append_left _ (h.since t hold).1, (h.since t hold).2⟩
    · refine ⟨List.mem_append_right _ hnew, .inr fun p hp => ?_⟩
      rw [htimes t hnew]
      exact h.lastFiring_lt p hp
  · intro f hf
    exact ⟨Nat.lt_succ_of_lt (h.firings f hf).1, Warranted.mono (h.firings f hf).2⟩

theorem see (h : TimerKept w) (hticks : 0 < w.auto.debouncer.ticks) :
    TimerKept { w.see with time := w.time + 1 } := by
  rw [← h.ticks] at hticks
  cases hqueued : w.queued with
  | nil =>
    rw [hqueued] at hticks
    contradiction
  | cons first rest =>
    have hsee : w.see.queued = rest ∧ w.see.seen = w.seen ++ [first] := by
      unfold Watch.see
      rw [hqueued]
      exact ⟨rfl, rfl⟩
    refine ⟨?_, fun _ => ?_, fun t ht => Nat.lt_succ_of_lt (h.accepted t ht), ?_, ?_⟩
    · change w.see.queued.length = w.auto.debouncer.ticks - 1
      rw [hsee.1, ← h.ticks, hqueued]
      rfl
    · change w.see.seen ≠ []
      rw [hsee.2]
      simp
    · intro t ht
      change t ∈ w.see.queued ++ w.see.seen at ht
      rw [hsee.1, hsee.2] at ht
      refine h.since t ?_
      rw [hqueued]
      simp only [List.mem_append, List.mem_cons, List.not_mem_nil, or_false] at ht ⊢
      rcases ht with hrest | hseen | hfirst
      · exact .inl (.inr hrest)
      · exact .inr hseen
      · exact .inl (.inl hfirst)
    · exact fun f hf => ⟨Nat.lt_succ_of_lt (h.firings f hf).1, (h.firings f hf).2⟩

theorem fire (h : TimerKept w) (harmed : w.auto.debouncer.deadline.isSome = true) :
    TimerKept { w.fire with time := w.time + 1 } := by
  refine ⟨h.ticks, fun hdeadline => absurd hdeadline (by simp [Watch.fire, AutoRefresh.fire, Debouncer.fire]),
    fun t ht => Nat.lt_succ_of_lt (h.accepted t ht), ?_, ?_⟩
  · intro t ht
    have hqueued : t ∈ w.queued := by simpa [Watch.fire] using ht
    exact ⟨(h.since t (List.mem_append_left _ hqueued)).1, .inl hqueued⟩
  · intro f hf
    rcases List.mem_append.1 hf with hold | hnew
    · exact ⟨Nat.lt_succ_of_lt (h.firings f hold).1, (h.firings f hold).2⟩
    · rw [List.mem_singleton.1 hnew]
      refine ⟨Nat.lt_succ_self _, h.armed harmed, fun t ht => ?_⟩
      obtain ⟨haccepted, hsince⟩ := h.since t (List.mem_append_right _ ht)
      exact ⟨haccepted, h.accepted t haccepted, hsince⟩

end TimerKept

/-! ### Actions and loads -/

structure LoadKept (w : Watch V) : Prop where
  idle : w.auto.coordinator.inFlight = none → w.auto.coordinator.pending = none ∧ w.auto.load = none
  waiting : ∀ f ∈ w.waiting, f ∈ w.firings
  looks : ∀ look ∈ w.looks, look.1 ∈ w.firings
  current : w.auto.coordinator.inFlight = some .autoRefresh → ∃ f, w.current = some f ∧ w.FoundOn f
  next : w.auto.coordinator.pending = some .autoRefresh → ∃ f, w.next = some f ∧ w.FoundOn f
  loads : ∀ l ∈ w.loads, l.trigger = .autoRefresh → ∃ f, l.cause = some f ∧ w.FoundOn f ∧ f.time < l.time

theorem FoundOn.mono {f : Firing} (h : w.FoundOn f) (hfirings : w.firings ⊆ w'.firings)
    (hlooks : w.looks ⊆ w'.looks) : w'.FoundOn f := ⟨hfirings h.1, hlooks h.2⟩

namespace LoadKept

theorem mono (h : LoadKept w) (hcoordinator : w'.auto.coordinator = w.auto.coordinator)
    (hload : w'.auto.load = w.auto.load) (hwaiting : w'.waiting ⊆ w'.firings)
    (hlook : ∀ look ∈ w'.looks, look.1 ∈ w'.firings) (hfirings : w.firings ⊆ w'.firings)
    (hlooks : w.looks ⊆ w'.looks) (hcurrent : w'.current = w.current) (hnext : w'.next = w.next)
    (hloads : w'.loads = w.loads) : LoadKept w' := by
  have hfound : ∀ f, w.FoundOn f → w'.FoundOn f := fun f hf => hf.mono hfirings hlooks
  refine ⟨?_, hwaiting, hlook, ?_, ?_, ?_⟩
  · rw [hcoordinator, hload]
    exact h.idle
  · rw [hcoordinator, hcurrent]
    exact fun hauto => (h.current hauto).imp fun f hf => ⟨hf.1, hfound f hf.2⟩
  · rw [hcoordinator, hnext]
    exact fun hauto => (h.next hauto).imp fun f hf => ⟨hf.1, hfound f hf.2⟩
  · rw [hloads]
    exact fun l hl hauto => (h.loads l hl hauto).imp fun f hf => ⟨hf.1, hfound f hf.2.1, hf.2.2⟩

/-- A request keeps what is known of loads, if a firing is known for it. -/
theorem request (h : LoadKept w) {trigger : LoadTrigger} (waiter : Option Waiter) {cause : Option Firing}
    (hcause : trigger = .autoRefresh → ∃ f, cause = some f ∧ w.FoundOn f) :
    LoadKept (w.request trigger waiter cause) := by
  cases hloading : w.auto.coordinator.isLoading with
  | true =>
    have hrequest : w.auto.coordinator.request trigger = { w.auto.coordinator with pending := some trigger } :=
      if_pos hloading
    have hinFlight : w.auto.coordinator.inFlight ≠ none := by
      intro hnone
      rw [Coordinator.isLoading, hnone] at hloading
      contradiction
    unfold Watch.request AutoRefresh.request
    rw [hrequest, hloading]
    exact ⟨fun hnone => absurd hnone hinFlight, h.waiting, h.looks, h.current,
      fun hauto => hcause (Option.some.inj hauto), h.loads⟩
  | false =>
    have hrequest : w.auto.coordinator.request trigger = { w.auto.coordinator with inFlight := some trigger } :=
      if_neg (by rw [hloading]; exact Bool.false_ne_true)
    unfold Watch.request AutoRefresh.request
    rw [hrequest, hloading]
    exact ⟨nofun, h.waiting, h.looks, fun hauto => hcause (Option.some.inj hauto), h.next, h.loads⟩

theorem look (h : LoadKept w) {i : Nat} {f : Firing} (hf : f ∈ w.firings) : LoadKept (w.look i f) := by
  refine h.mono rfl rfl (fun _ hg => h.waiting _ (List.eraseIdx_subset hg)) (fun look hlook => ?_)
    (List.Subset.refl _) (List.subset_append_left _ _) rfl rfl rfl
  rcases List.mem_append.1 hlook with hold | hnew
  · exact h.looks look hold
  · rw [List.mem_singleton.1 hnew]
    exact hf

theorem begin (h : LoadKept w) (htimer : TimerKept w) {trigger : LoadTrigger} (time : Nat)
    (outcome : LoadOutcome V) (hinFlight : w.auto.coordinator.inFlight = some trigger) :
    LoadKept (w.begin trigger time outcome) := by
  have hsome : w.auto.coordinator.inFlight ≠ none := by
    rw [hinFlight]
    exact Option.some_ne_none _
  refine ⟨fun hnone => absurd hnone hsome, h.waiting, h.looks, h.current, h.next, fun l hl hauto => ?_⟩
  rcases List.mem_append.1 hl with hold | hnew
  · exact h.loads l hold hauto
  · rw [List.mem_singleton.1 hnew] at hauto ⊢
    obtain ⟨f, hcurrent, hfound⟩ := h.current (hinFlight.trans (congrArg some hauto))
    exact ⟨f, hcurrent, hfound, (htimer.firings f hfound.1).1⟩

/-- The request that was pending takes the place of the load. -/
theorem finish (h : LoadKept w) (outcome : LoadOutcome V) : LoadKept (w.finish outcome) :=
  ⟨fun _ => ⟨rfl, rfl⟩, h.waiting, h.looks, h.next, nofun, h.loads⟩

end LoadKept

/-! ### Nothing is lost -/

/-- Something is left that leads to a load, unless refreshing was turned off for an action. -/
def Open (w : Watch V) : Prop :=
  0 < w.auto.debouncer.ticks ∨ w.auto.debouncer.deadline.isSome = true ∨ 0 < w.auto.actions ∨
    (∃ look ∈ w.looks, look.2 = false) ∨ w.auto.coordinator.pending.isSome = true ∨
    (w.auto.coordinator.inFlight.isSome = true ∧ w.auto.load = none)

/-- Loads that start by themselves have a change behind them, and every change has a load behind it. An action
looks at the settings when it is run; they are those of its firing unless they were changed while it waited. A
firing leaves no change unseen unless the timer goes off while a trigger is queued. -/
structure Accounts (w : Watch V) : Prop where
  warranted : ∀ l ∈ w.loads, l.trigger = .autoRefresh →
    ∃ f, l.cause = some f ∧ w.FoundOn f ∧ f.time < l.time ∧ f.Warranted w.accepted
  served : w.Quiet → (∀ look ∈ w.looks, look.2 = true) → ∀ t ∈ w.accepted, w.LoadedSince t
  steady : ∀ look ∈ w.looks, look.1 ∈ w.firings ∧ (w.stirred = false → look.2 = look.1.enabled)
  prompt : w.rushed = false → ∀ f ∈ w.firings, f.left = []

/-- With settings that stay as they are while an action waits, it is the firings that count. -/
theorem Accounts.loadedSince (h : w.Accounts) (hquiet : w.Quiet) (hstirred : w.stirred = false)
    (hon : ∀ f ∈ w.firings, f.enabled = true) : ∀ t ∈ w.accepted, w.LoadedSince t := by
  refine h.served hquiet fun look hlook => ?_
  obtain ⟨hfiring, henabled⟩ := h.steady look hlook
  exact (henabled hstirred).trans (hon look.1 hfiring)

example : let steps : List (Step String) := [.request .startup (some ⟨0, true⟩), .begin 5 { ok := true }, .wait 5,
      .finish, .change (.modified "Components/a.js"), .see, .wait 300, .fire,
      .change (.modified "Components/a.js"), .act 0, .begin 5 { ok := true }, .see, .wait 300, .fire, .act 0,
      .finish, .begin 5 { ok := true }, .wait 5, .finish]
    let w := Step.run steps (.new {})
    w.accepted = [4, 8] ∧ w.loads.map (fun l => (l.time, l.trigger)) =
      [(1, .startup), (10, .autoRefresh), (16, .autoRefresh)] := by decide

end Watch

end LiveNotes.Refresh
