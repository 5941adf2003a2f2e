import LiveNotes.Proofs.Refresh.Session

/-! However requests come and runs go on, one load runs at a time. Requests that come during a run share
its result and get one more run between them, for the last one; so none is lost. -/

namespace LiveNotes.Refresh

namespace Session

variable {V : Type} {s : Session V} {k j : Nat} {p q : Phase V} {o : LoadOutcome V}
  {past : List (Run V)} {now : Option (Run V)} {older newer : List Request}

structure Coalesces (s : Session V) : Prop where
  one_load : ∀ j k, s.phase? j = some .loading → s.phase? k = some .loading → j = k
  one_run : ∀ j k, s.InFlight j → s.InFlight k → j = k
  loading : s.coordinator.isLoading = true ↔ ∃ k, s.InFlight k
  current : ∀ k, s.current = some k ↔ s.InFlight k
  /-- Runs do not go back, and keep what they have loaded. -/
  lasting : ∀ (e : Event V) k p, s.phase? k = some p → ∃ q, (e.apply s).phase? k = some q ∧ p.Before q
  joins : ∀ trigger waiter k, s.InFlight k → k + 1 = s.runs.length ∧
    ((Event.request trigger waiter).apply s).requests = s.requests ++ [⟨trigger, waiter, k, false⟩] ∧
      ((Event.request trigger waiter).apply s).runs = s.runs
  leads : ∀ trigger waiter, (∀ k, ¬ s.InFlight k) →
    ((Event.request trigger waiter).apply s).requests =
        s.requests ++ [⟨trigger, waiter, s.runs.length, true⟩] ∧
      ((Event.request trigger waiter).apply s).runs = s.runs ++ [{ trigger := trigger }]
  /-- With the end of a run one more starts if requests came during it, for the last of them. -/
  trailing : ∀ k o, s.phase? k = some (.announced o) →
    ((Event.complete k).apply s).runs =
      (s.enter k (.ended o)).runs ++ ((s.arrivals k).getLast?.map fun t => { trigger := t }).toList
  /-- Nothing else starts a run. -/
  quiet : ∀ e : Event V, (∀ trigger waiter, e ≠ .request trigger waiter) →
    (e.apply s).requests = s.requests ∧
      ((∀ k o, e = .complete k → s.phase? k ≠ some (.announced o)) →
        (e.apply s).runs.map (·.trigger) = s.runs.map (·.trigger))
  answered : ∀ r ∈ s.requests, s.InFlight r.run ∧ s.answer? r = none ∨
    ∃ o, s.phase? r.run = some (.ended o) ∧ s.answer? r = some o.ok
  /-- When a load gives a result in the end, all who wait for it are told. -/
  returns : ∀ r ∈ s.requests, ∀ o, ((Event.run (Event.finish r.run o) s).answer? r).isSome = true
  /-- A request that shares the result of a run is followed by the start of one more. -/
  kept : ∀ r ∈ s.requests, r.started = false →
    s.InFlight r.run ∧ s.coordinator.pending.isSome = true ∨ r.run + 1 < s.runs.length
  idle : (∀ k, ¬ s.InFlight k) →
    s.coordinator.pending = none ∧ s.coordinator.renders = s.coordinator.completed
  completed : s.coordinator.completed = s.runs.countP (·.phase.isEnded)

/-! ### One run -/

@[simp] theorem phase?_complete (o : LoadOutcome V) (h : s.phase? j = some p) :
    (s.complete k o).phase? j = some (if k = j then .ended o else p) := by
  refine phase?_append (runs_complete s k o) ?_
  rw [phase?_enter, h]
  split
  · rfl
  · rfl

theorem before_enter (hk : s.phase? k = some p) (hb : p.Before q) {p' : Phase V}
    (h : s.phase? j = some p') : ∃ q', (s.enter k q).phase? j = some q' ∧ p'.Before q' := by
  rw [phase?_enter]
  by_cases hj : k = j
  · subst hj
    rw [hk, Option.some.injEq] at h
    subst h
    rw [if_pos rfl, hk]
    exact ⟨q, rfl, hb⟩
  · rw [if_neg hj]
    exact ⟨p', h, .refl p'⟩

theorem before_of_step {e : Event V} {s' : Session V} (hstep : Event.Step s e s')
    (h : s.phase? j = some p) : ∃ q, s'.phase? j = some q ∧ p.Before q := by
  cases hstep with
  | none => exact ⟨p, h, .refl p⟩
  | request trigger waiter =>
    refine ⟨p, ?_, .refl p⟩
    unfold request
    cases s.current with
    | none => exact phase?_append rfl h
    | some k => exact h
  | begin hk => exact before_enter (q := .loading) hk ⟨Nat.le_succ 0, fun _ ho => ho⟩ h
  | load hk => exact before_enter (q := .loaded _) hk ⟨Nat.le_succ 1, fun _ ho => nomatch ho⟩ h
  | write hk => exact before_enter (q := .written _) hk ⟨Nat.le_succ 2, fun _ ho => ho⟩ h
  | announce hk => exact before_enter (q := .announced _) hk ⟨Nat.le_succ 3, fun _ ho => ho⟩ h
  | complete hk =>
    obtain ⟨q, hq, hb⟩ := before_enter (q := .ended _) hk ⟨Nat.le_succ 4, fun _ ho => ho⟩ h
    exact ⟨q, phase?_append (runs_complete s _ _) hq, hb⟩
  | operate op => exact ⟨p, h, .refl p⟩

/-- Whatever steps a run has taken, with the others it is over. -/
theorem exists_ended_finish (h : s.phase? k = some p) (o : LoadOutcome V) :
    ∃ o', (Event.run (Event.finish k o) s).phase? k = some (.ended o') := by
  refine ⟨p.outcome?.getD o, ?_⟩
  unfold Event.run Event.finish Event.land
  cases p with
  | asked =>
    simp [Event.apply, h]
    rfl
  | loading =>
    simp [Event.apply, h]
    rfl
  | loaded o =>
    simp [Event.apply, h]
    rfl
  | written o =>
    simp [Event.apply, h]
    rfl
  | announced o =>
    simp [Event.apply, h]
    rfl
  | ended o =>
    simp [Event.apply, h]
    rfl

namespace Orderly

theorem inFlight_of_newer (h : s.Orderly past now older newer) {r : Request} (hr : r ∈ newer) :
    s.InFlight r.run := by
  rw [h.inFlight_iff]
  refine ⟨h.newer_run r hr, ?_⟩
  cases now with
  | none =>
    rw [h.idle rfl] at hr
    contradiction
  | some _ => rfl

theorem exists_phase? (h : s.Orderly past now older newer) {r : Request} (hr : r ∈ s.requests) :
    ∃ p, s.phase? r.run = some p := by
  rw [h.requests] at hr
  rcases List.mem_append.1 hr with hr | hr
  · have hlt : r.run < s.runs.length := by
      rw [h.runs, List.length_append]
      exact Nat.lt_add_right _ (h.older_run r hr).1
    unfold phase?
    rw [List.getElem?_eq_getElem hlt]
    exact ⟨_, rfl⟩
  · obtain ⟨p, hp, -⟩ := h.inFlight_of_newer hr
    exact ⟨p, hp⟩

theorem answered (h : s.Orderly past now older newer) {r : Request} (hr : r ∈ s.requests) :
    s.InFlight r.run ∧ s.answer? r = none ∨
      ∃ o, s.phase? r.run = some (.ended o) ∧ s.answer? r = some o.ok := by
  obtain ⟨p, hp⟩ := h.exists_phase? hr
  unfold answer? InFlight
  rw [hp]
  cases p with
  | ended o => exact .inr ⟨o, rfl, rfl⟩
  | _ => exact .inl ⟨⟨_, rfl, rfl⟩, rfl⟩

theorem isSome_answer? (h : s.Orderly past now older newer) {r : Request} (hr : r ∈ older) :
    (s.answer? r).isSome = true := by
  have hmem : r ∈ s.requests := by
    rw [h.requests]
    exact List.mem_append_left _ hr
  rcases h.answered hmem with ⟨hflight, -⟩ | ⟨o, -, ho⟩
  · exact absurd (h.inFlight_iff.1 hflight).1 (Nat.ne_of_lt (h.older_run r hr).1)
  · rw [ho]
    rfl

theorem answer?_eq_none (h : s.Orderly past now older newer) {r : Request} (hr : r ∈ newer) :
    s.answer? r = none := by
  obtain ⟨p, hp, hopen⟩ := h.inFlight_of_newer hr
  unfold answer?
  rw [hp, Option.bind_some, Option.not_isSome_iff_eq_none.1 (Bool.eq_false_iff.1 hopen)]
  rfl

theorem kept (h : s.Orderly past now older newer) {r : Request} (hr : r ∈ s.requests)
    (hjoined : r.started = false) :
    s.InFlight r.run ∧ s.coordinator.pending.isSome = true ∨ r.run + 1 < s.runs.length := by
  rw [h.requests] at hr
  rcases List.mem_append.1 hr with hr | hr
  · -- Its run is over, and another one has been started since.
    refine .inr ((h.older_run r hr).2.resolve_left ?_)
    rw [hjoined]
    exact Bool.false_ne_true
  · refine .inl ⟨h.inFlight_of_newer hr, ?_⟩
    rw [h.pending, List.getLast?_eq_some_getLast (joined_ne_nil hr hjoined)]
    rfl

theorem eq_none (h : s.Orderly past now older newer) (hidle : ∀ k, ¬ s.InFlight k) : now = none := by
  cases now with
  | none => rfl
  | some r => exact absurd (h.inFlight_iff.2 ⟨rfl, rfl⟩) (hidle _)

theorem trailing (h : s.Orderly past now older newer) (hp : s.phase? k = some (.announced o)) :
    ((Event.complete k).apply s).runs =
      (s.enter k (.ended o)).runs ++ ((s.arrivals k).getLast?.map fun t => { trigger := t }).toList := by
  obtain ⟨rfl, -⟩ := h.eq_of_phase? hp rfl
  simp only [Event.apply, hp]
  rw [runs_complete, h.pending, h.arrivals_eq]

end Orderly

theorem quiet_of_step {e : Event V} {s' : Session V} (hstep : Event.Step s e s')
    (hrequest : ∀ trigger waiter, e ≠ .request trigger waiter) :
    s'.requests = s.requests ∧
      ((∀ k o, e = .complete k → s.phase? k ≠ some (.announced o)) →
        s'.runs.map (·.trigger) = s.runs.map (·.trigger)) := by
  cases hstep with
  | none => exact ⟨rfl, fun _ => rfl⟩
  | request trigger waiter => exact absurd rfl (hrequest trigger waiter)
  | begin => exact ⟨rfl, fun _ => map_trigger_enter s _ _⟩
  | load => exact ⟨rfl, fun _ => map_trigger_enter s _ _⟩
  | write => exact ⟨rfl, fun _ => map_trigger_enter s _ _⟩
  | announce => exact ⟨rfl, fun _ => map_trigger_enter s _ _⟩
  | complete hp => exact ⟨requests_complete s _ _, fun h => absurd hp (h _ _ rfl)⟩
  | operate op => exact ⟨rfl, fun _ => rfl⟩

theorem coalesces (g : ScopeGraph V) (events : List (Event V)) :
    Coalesces (Event.run events (start g)) := by
  obtain ⟨past, now, older, newer, h⟩ := (Orderly.start g).run events
  generalize Event.run events (start g) = s at h
  have hlast : ∀ {k p}, s.phase? k = some p → p.isEnded = false → k = past.length :=
    fun hp hopen => (h.eq_of_phase? hp hopen).1
  exact
    { one_load := fun j k hj hk => (hlast hj rfl).trans (hlast hk rfl).symm
      one_run := fun j k hj hk => (h.inFlight_iff.1 hj).1.trans (h.inFlight_iff.1 hk).1.symm
      loading := by
        unfold Coordinator.isLoading
        rw [h.inFlight, Option.isSome_map]
        constructor
        · exact fun hnow => ⟨past.length, h.inFlight_iff.2 ⟨rfl, hnow⟩⟩
        · rintro ⟨k, hk⟩
          exact (h.inFlight_iff.1 hk).2
      current := by
        intro k
        rw [h.current, h.inFlight_iff]
        cases now with
        | none => simp
        | some r => simp [eq_comm]
      lasting := fun e k p hp => before_of_step (Event.step_apply e s) hp
      joins := by
        intro trigger waiter k hk
        obtain ⟨rfl, hnow⟩ := h.inFlight_iff.1 hk
        obtain ⟨r, rfl⟩ := Option.isSome_iff_exists.1 hnow
        simp only [Event.apply]
        rw [h.join]
        refine ⟨?_, rfl, rfl⟩
        rw [h.runs, List.length_append]
        rfl
      leads := by
        intro trigger waiter hidle
        obtain rfl := h.eq_none hidle
        simp only [Event.apply]
        rw [h.lead]
        exact ⟨rfl, rfl⟩
      trailing := fun k o hp => h.trailing hp
      quiet := fun e => quiet_of_step (Event.step_apply e s)
      answered := fun r hr => h.answered hr
      returns := by
        intro r hr o
        obtain ⟨p, hp⟩ := h.exists_phase? hr
        obtain ⟨o', ho'⟩ := exists_ended_finish hp o
        unfold answer?
        rw [ho']
        rfl
      kept := fun r hr hjoined => h.kept hr hjoined
      idle := by
        intro hidle
        obtain rfl := h.eq_none hidle
        rw [h.pending, h.idle rfl, h.renders, h.completed]
        exact ⟨rfl, rfl⟩
      completed := by
        have hended : past.countP (·.phase.isEnded) = past.length := List.countP_eq_length.2 h.ended
        have hopen : now.toList.countP (·.phase.isEnded) = 0 := by
          refine List.countP_eq_zero.2 fun r hr => ?_
          rw [h.running r (Option.mem_toList.1 hr)]
          exact Bool.false_ne_true
        rw [h.completed, h.runs, List.countP_append, hended, hopen, Nat.add_zero] }

end Session

end LiveNotes.Refresh
