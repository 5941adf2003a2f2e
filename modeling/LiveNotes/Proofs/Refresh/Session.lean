import LiveNotes.Proofs.Scope.Operation
import LiveNotes.Refresh.Auto

/-! Runs that a coordinator is asked for, and the requests. A run loads, binds what it has loaded in the
root scope, announces that, and is over. Between any two of these steps requests may come and scopes may
change. A request waits for the run in flight, or for the one that it starts. -/

namespace LiveNotes.Refresh

variable {V : Type}

/-- How far a run has come. -/
inductive Phase (V : Type) where
  | asked
  | loading
  | loaded (o : LoadOutcome V)
  | written (o : LoadOutcome V)
  | announced (o : LoadOutcome V)
  | ended (o : LoadOutcome V)
  deriving Repr, Inhabited

namespace Phase

def result? : Phase V → Option (LoadOutcome V)
  | .ended o => some o
  | _ => none

/-- What a run has bound in the root scope. -/
def written? : Phase V → Option (LoadOutcome V)
  | .written o | .announced o | .ended o => some o
  | _ => none

def outcome? : Phase V → Option (LoadOutcome V)
  | .loaded o => some o
  | p => p.written?

def rank : Phase V → Nat
  | .asked => 0
  | .loading => 1
  | .loaded _ => 2
  | .written _ => 3
  | .announced _ => 4
  | .ended _ => 5

/-- A run may come from one phase to another; what it has loaded stays. -/
def Before (p q : Phase V) : Prop := p.rank ≤ q.rank ∧ ∀ o, p.outcome? = some o → q.outcome? = some o

def isEnded (p : Phase V) : Bool := p.result?.isSome

def isAnnounced : Phase V → Bool
  | .announced _ | .ended _ => true
  | _ => false

theorem Before.refl (p : Phase V) : p.Before p := ⟨Nat.le_refl _, fun _ h => h⟩

end Phase

structure Run (V : Type) where
  trigger : LoadTrigger
  phase : Phase V := .asked
  deriving Repr, Inhabited

structure Request where
  trigger : LoadTrigger
  waiter : Option Waiter
  /-- The number of the run whose result it waits for. -/
  run : Nat
  /-- Whether it started that run. -/
  started : Bool
  deriving DecidableEq, Repr, Inhabited

structure Session (V : Type) where
  coordinator : Coordinator := {}
  graph : ScopeGraph V
  runs : List (Run V) := []
  requests : List Request := []
  /-- The number of the run in flight, as the coordinator has it. -/
  current : Option Nat := none
  deriving Repr, Inhabited

namespace Session

variable {s : Session V} {k : Nat}

def start (g : ScopeGraph V) : Session V := { graph := g }

def phase? (s : Session V) (k : Nat) : Option (Phase V) := (s.runs[k]?).map (·.phase)

def InFlight (s : Session V) (k : Nat) : Prop := ∃ p, s.phase? k = some p ∧ p.isEnded = false

/-- What a request is told, once its run is over. -/
def answer? (s : Session V) (r : Request) : Option Bool :=
  ((s.phase? r.run).bind (·.result?)).map (·.ok)

/-- The triggers of some requests, without those that started a run. -/
def joined (requests : List Request) : List LoadTrigger :=
  (requests.filter fun r => !r.started).map (·.trigger)

/-- The triggers of the requests that came during a run. -/
def arrivals (s : Session V) (k : Nat) : List LoadTrigger :=
  joined (s.requests.filter fun r => r.run == k)

/-! ### Steps -/

def launch (s : Session V) (trigger : LoadTrigger) : Session V :=
  { s with runs := s.runs ++ [{ trigger := trigger }], current := some s.runs.length }

def request (s : Session V) (trigger : LoadTrigger) (waiter : Option Waiter) : Session V :=
  let coordinator := s.coordinator.request trigger
  match s.current with
  | some k => { s with coordinator, requests := s.requests ++ [⟨trigger, waiter, k, false⟩] }
  | none =>
    let requests := s.requests ++ [⟨trigger, waiter, s.runs.length, true⟩]
    { s.launch trigger with coordinator, requests }

def enter (s : Session V) (k : Nat) (phase : Phase V) : Session V :=
  { s with runs := s.runs.modify k fun r => { r with phase := phase } }

def write (s : Session V) (k : Nat) (o : LoadOutcome V) : Session V :=
  { s.enter k (.written o) with graph := s.graph.setMany rootScopeId o.exports }

def announce (s : Session V) (k : Nat) (o : LoadOutcome V) : Session V :=
  { s.enter k (.announced o) with coordinator := s.coordinator.published }

/-- Ends a run; the one for the pending request takes its place. -/
def complete (s : Session V) (k : Nat) (o : LoadOutcome V) : Session V :=
  let coordinator := s.coordinator.complete o.ok
  let left := { s.enter k (.ended o) with coordinator, current := none }
  match s.coordinator.pending with
  | some trigger => left.launch trigger
  | none => left

end Session

inductive Event (V : Type) where
  | request (trigger : LoadTrigger) (waiter : Option Waiter)
  | begin (k : Nat)
  | load (k : Nat) (o : LoadOutcome V)
  | write (k : Nat)
  | announce (k : Nat)
  | complete (k : Nat)
  /-- Something else that is done to the scopes. -/
  | operate (op : ScopeGraph.Operation V)
  deriving Repr, Inhabited

namespace Event

/-- A step of a run that is not at that point is none. -/
def apply (e : Event V) (s : Session V) : Session V :=
  match e with
  | .request trigger waiter => s.request trigger waiter
  | .begin k =>
    match s.phase? k with
    | some .asked => s.enter k .loading
    | _ => s
  | .load k o =>
    match s.phase? k with
    | some .loading => s.enter k (.loaded o)
    | _ => s
  | .write k =>
    match s.phase? k with
    | some (.loaded o) => s.write k o
    | _ => s
  | .announce k =>
    match s.phase? k with
    | some (.written o) => s.announce k o
    | _ => s
  | .complete k =>
    match s.phase? k with
    | some (.announced o) => s.complete k o
    | _ => s
  | .operate op => { s with graph := op.apply s.graph }

def run (events : List (Event V)) (s : Session V) : Session V := events.foldl (fun s e => e.apply s) s

/-- What an event may do to a session. -/
inductive Step (s : Session V) : Event V → Session V → Prop
  | none (e : Event V) : Step s e s
  | request (trigger : LoadTrigger) (waiter : Option Waiter) :
      Step s (.request trigger waiter) (s.request trigger waiter)
  | begin {k : Nat} : s.phase? k = some .asked → Step s (.begin k) (s.enter k .loading)
  | load {k : Nat} {o : LoadOutcome V} :
      s.phase? k = some .loading → Step s (.load k o) (s.enter k (.loaded o))
  | write {k : Nat} {o : LoadOutcome V} :
      s.phase? k = some (.loaded o) → Step s (.write k) (s.write k o)
  | announce {k : Nat} {o : LoadOutcome V} :
      s.phase? k = some (.written o) → Step s (.announce k) (s.announce k o)
  | complete {k : Nat} {o : LoadOutcome V} :
      s.phase? k = some (.announced o) → Step s (.complete k) (s.complete k o)
  | operate (op : ScopeGraph.Operation V) :
      Step s (.operate op) { s with graph := op.apply s.graph }

theorem step_apply (e : Event V) (s : Session V) : Step s e (e.apply s) := by
  cases e with
  | request trigger waiter => exact .request trigger waiter
  | operate op => exact .operate op
  | begin k =>
    simp only [apply]
    split
    · next h => exact .begin h
    · exact .none _
  | load k o =>
    simp only [apply]
    split
    · next h => exact .load h
    · exact .none _
  | write k =>
    simp only [apply]
    split
    · next h => exact .write h
    · exact .none _
  | announce k =>
    simp only [apply]
    split
    · next h => exact .announce h
    · exact .none _
  | complete k =>
    simp only [apply]
    split
    · next h => exact .complete h
    · exact .none _

/-- The steps of a run from the result of its load on. -/
def land (k : Nat) (o : LoadOutcome V) : List (Event V) := [.load k o, .write k, .announce k, .complete k]

/-- All steps of a run; those that it has taken already do nothing. -/
def finish (k : Nat) (o : LoadOutcome V) : List (Event V) := .begin k :: land k o

end Event

namespace Session

variable {s : Session V} {k j : Nat} {p : Phase V} {o : LoadOutcome V} {trigger : LoadTrigger}
  {waiter : Option Waiter}

/-! ### Phases after a step -/

@[simp] theorem phase?_enter (s : Session V) (k j : Nat) (p : Phase V) :
    (s.enter k p).phase? j = if k = j then (s.phase? j).map fun _ => p else s.phase? j := by
  unfold phase? enter
  rw [List.getElem?_modify, Option.map_eq_map, Option.map_map]
  split
  · simp [Function.comp_def]
  · simp [Function.comp_def]

@[simp] theorem phase?_write (s : Session V) (k j : Nat) (o : LoadOutcome V) :
    (s.write k o).phase? j = if k = j then (s.phase? j).map fun _ => .written o else s.phase? j :=
  phase?_enter s k j _

@[simp] theorem phase?_announce (s : Session V) (k j : Nat) (o : LoadOutcome V) :
    (s.announce k o).phase? j = if k = j then (s.phase? j).map fun _ => .announced o else s.phase? j :=
  phase?_enter s k j _

theorem phase?_append {s' : Session V} {l : List (Run V)} (h : s'.runs = s.runs ++ l)
    (hp : s.phase? k = some p) : s'.phase? k = some p := by
  obtain ⟨r, hr, rfl⟩ := Option.map_eq_some_iff.1 hp
  unfold phase?
  rw [h, List.getElem?_append_left (List.getElem?_eq_some_iff.1 hr).1, hr]
  rfl

theorem map_trigger_enter (s : Session V) (k : Nat) (p : Phase V) :
    (s.enter k p).runs.map (·.trigger) = s.runs.map (·.trigger) := by
  refine List.ext_getElem? fun j => ?_
  unfold enter
  rw [List.getElem?_map, List.getElem?_map, List.getElem?_modify, Option.map_eq_map, Option.map_map]
  refine congrArg (fun f => Option.map f s.runs[j]?) (funext fun r => ?_)
  rw [Function.comp_apply]
  split
  · rfl
  · rfl

theorem length_enter (s : Session V) (k : Nat) (p : Phase V) :
    (s.enter k p).runs.length = s.runs.length := List.length_modify _ _ _

theorem coordinator_request (s : Session V) (trigger : LoadTrigger) (waiter : Option Waiter) :
    (s.request trigger waiter).coordinator = s.coordinator.request trigger := by
  unfold request
  cases s.current with
  | none => rfl
  | some k => rfl

theorem graph_request (s : Session V) (trigger : LoadTrigger) (waiter : Option Waiter) :
    (s.request trigger waiter).graph = s.graph := by
  unfold request
  cases s.current with
  | none => rfl
  | some k => rfl

theorem runs_complete (s : Session V) (k : Nat) (o : LoadOutcome V) :
    (s.complete k o).runs = (s.enter k (.ended o)).runs ++
      (s.coordinator.pending.map fun trigger => ({ trigger := trigger } : Run V)).toList := by
  unfold complete
  cases s.coordinator.pending with
  | none => exact (List.append_nil _).symm
  | some trigger => rfl

theorem current_complete (s : Session V) (k : Nat) (o : LoadOutcome V) :
    (s.complete k o).current = s.coordinator.pending.map fun _ => s.runs.length := by
  unfold complete
  cases s.coordinator.pending with
  | none => rfl
  | some trigger => exact congrArg some (length_enter s k _)

theorem requests_complete (s : Session V) (k : Nat) (o : LoadOutcome V) :
    (s.complete k o).requests = s.requests := by
  unfold complete
  cases s.coordinator.pending with
  | none => rfl
  | some trigger => rfl

theorem graph_complete (s : Session V) (k : Nat) (o : LoadOutcome V) :
    (s.complete k o).graph = s.graph := by
  unfold complete
  cases s.coordinator.pending with
  | none => rfl
  | some trigger => rfl

theorem coordinator_complete (s : Session V) (k : Nat) (o : LoadOutcome V) :
    (s.complete k o).coordinator = s.coordinator.complete o.ok := by
  unfold complete
  cases s.coordinator.pending with
  | none => rfl
  | some trigger => rfl

/-! ### Order -/

/-- All runs but the one in flight are over, and the coordinator knows which that is. The later of the
requests wait for it; each of the earlier ones has had one more run after it. -/
structure Orderly (s : Session V) (past : List (Run V)) (now : Option (Run V))
    (older newer : List Request) : Prop where
  runs : s.runs = past ++ now.toList
  ended : ∀ r ∈ past, r.phase.isEnded = true
  running : ∀ r ∈ now, r.phase.isEnded = false
  requests : s.requests = older ++ newer
  older_run : ∀ q ∈ older, q.run < past.length ∧ (q.started = true ∨ q.run + 1 < s.runs.length)
  newer_run : ∀ q ∈ newer, q.run = past.length
  idle : now = none → newer = []
  current : s.current = now.map fun _ => past.length
  inFlight : s.coordinator.inFlight = now.map (·.trigger)
  pending : s.coordinator.pending = (joined newer).getLast?
  completed : s.coordinator.completed = past.length
  renders : s.coordinator.renders = past.length + (now.any (·.phase.isAnnounced)).toNat

variable {past : List (Run V)} {now : Option (Run V)} {older newer : List Request} {r : Run V}

theorem joined_append (l l' : List Request) : joined (l ++ l') = joined l ++ joined l' := by
  unfold joined
  rw [List.filter_append, List.map_append]

theorem joined_ne_nil {l : List Request} {q : Request} (hq : q ∈ l) (hs : q.started = false) :
    joined l ≠ [] := by
  refine List.ne_nil_of_mem (a := q.trigger) (List.mem_map_of_mem ?_)
  exact List.mem_filter.2 ⟨hq, by rw [hs, Bool.not_false]⟩

theorem modify_concat {α : Type} (l : List α) (a : α) (f : α → α) :
    (l ++ [a]).modify l.length f = l ++ [f a] := by
  induction l with
  | nil => rfl
  | cons b l ih => exact congrArg (b :: ·) ih

namespace Orderly

theorem start (g : ScopeGraph V) : Orderly (Session.start g) [] none [] [] where
  runs := rfl
  ended := by simp
  running := by simp
  requests := rfl
  older_run := by simp
  newer_run := by simp
  idle _ := rfl
  current := rfl
  inFlight := rfl
  pending := rfl
  completed := rfl
  renders := rfl

/-- A run that is not over is the last one. -/
theorem eq_of_phase? (h : s.Orderly past now older newer) (hp : s.phase? k = some p)
    (hopen : p.isEnded = false) : k = past.length ∧ ∃ r, now = some r ∧ r.phase = p := by
  obtain ⟨r, hr, rfl⟩ := Option.map_eq_some_iff.1 hp
  rw [h.runs] at hr
  rcases Nat.lt_or_ge k past.length with hk | hk
  · rw [List.getElem?_append_left hk] at hr
    rw [h.ended r (List.mem_of_getElem? hr)] at hopen
    contradiction
  · rw [List.getElem?_append_right hk] at hr
    cases now with
    | none => simp at hr
    | some r' =>
      obtain ⟨hlt, heq⟩ := List.getElem?_eq_some_iff.1 hr
      have hlast : k = past.length := Nat.le_antisymm (Nat.sub_eq_zero_iff_le.1 (by simpa using hlt)) hk
      subst hlast
      refine ⟨rfl, r', rfl, ?_⟩
      simpa using congrArg Run.phase heq

theorem phase?_last (h : s.Orderly past (some r) older newer) :
    s.phase? past.length = some r.phase := by
  unfold phase?
  rw [h.runs]
  have hlast : (past ++ (some r).toList)[past.length]? = some r := List.getElem?_concat_length
  rw [hlast, Option.map_some]

theorem inFlight_iff (h : s.Orderly past now older newer) :
    s.InFlight k ↔ k = past.length ∧ now.isSome = true := by
  constructor
  · rintro ⟨p, hp, hopen⟩
    obtain ⟨hk, r, hnow, -⟩ := h.eq_of_phase? hp hopen
    exact ⟨hk, Option.isSome_iff_exists.2 ⟨r, hnow⟩⟩
  · rintro ⟨rfl, hnow⟩
    obtain ⟨r, rfl⟩ := Option.isSome_iff_exists.1 hnow
    exact ⟨r.phase, h.phase?_last, h.running r rfl⟩

/-- The requests that came during the run in flight are those of the newer ones that did not start it. -/
theorem arrivals_eq (h : s.Orderly past now older newer) : s.arrivals past.length = joined newer := by
  have holder : older.filter (fun q => q.run == past.length) = [] := by
    refine List.filter_eq_nil_iff.2 fun q hq => ?_
    simpa using Nat.ne_of_lt (h.older_run q hq).1
  have hnewer : newer.filter (fun q => q.run == past.length) = newer :=
    List.filter_eq_self.2 fun q hq => by simpa using h.newer_run q hq
  unfold arrivals
  rw [h.requests, List.filter_append, holder, hnewer, List.nil_append]

/-! ### Each step keeps order -/

theorem operate (h : s.Orderly past now older newer) (g : ScopeGraph V) :
    Orderly { s with graph := g } past now older newer := by
  obtain ⟨h₁, h₂, h₃, h₄, h₅, h₆, h₇, h₈, h₉, h₁₀, h₁₁, h₁₂⟩ := h
  exact ⟨h₁, h₂, h₃, h₄, h₅, h₆, h₇, h₈, h₉, h₁₀, h₁₁, h₁₂⟩

theorem join (h : s.Orderly past (some r) older newer) (trigger : LoadTrigger)
    (waiter : Option Waiter) :
    s.request trigger waiter = { s with
      coordinator := { s.coordinator with pending := some trigger }
      requests := s.requests ++ [⟨trigger, waiter, past.length, false⟩] } := by
  have hloading : s.coordinator.isLoading = true := by
    unfold Coordinator.isLoading
    rw [h.inFlight]
    rfl
  unfold request Coordinator.request
  rw [h.current, if_pos hloading]
  rfl

theorem lead (h : s.Orderly past none older newer) (trigger : LoadTrigger) (waiter : Option Waiter) :
    s.request trigger waiter = { s.launch trigger with
      coordinator := { s.coordinator with inFlight := some trigger }
      requests := s.requests ++ [⟨trigger, waiter, s.runs.length, true⟩] } := by
  have hidle : ¬ s.coordinator.isLoading = true := by
    unfold Coordinator.isLoading
    rw [h.inFlight]
    simp
  unfold request Coordinator.request
  rw [h.current, if_neg hidle]
  rfl

theorem request_some (h : s.Orderly past (some r) older newer) (trigger : LoadTrigger)
    (waiter : Option Waiter) :
    (s.request trigger waiter).Orderly past (some r) older
      (newer ++ [⟨trigger, waiter, past.length, false⟩]) := by
  rw [h.join]
  exact
    { runs := h.runs
      ended := h.ended
      running := h.running
      requests := by
        change s.requests ++ _ = _
        rw [h.requests, List.append_assoc]
      older_run := h.older_run
      newer_run := by
        intro q hq
        rcases List.mem_append.1 hq with hq | hq
        · exact h.newer_run q hq
        · rw [List.mem_singleton.1 hq]
      idle := by simp
      current := h.current
      inFlight := h.inFlight
      pending := by
        rw [joined_append, List.getLast?_append]
        rfl
      completed := h.completed
      renders := h.renders }

theorem request_none (h : s.Orderly past none older newer) (trigger : LoadTrigger)
    (waiter : Option Waiter) :
    (s.request trigger waiter).Orderly past (some { trigger := trigger }) older
      [⟨trigger, waiter, past.length, true⟩] := by
  have hruns : s.runs = past := h.runs.trans (List.append_nil past)
  rw [h.lead]
  exact
    { runs := congrArg (· ++ [({ trigger := trigger } : Run V)]) hruns
      ended := h.ended
      running := by
        intro r hr
        rw [← Option.some.inj hr]
        rfl
      requests := by
        change s.requests ++ _ = _
        rw [h.requests, h.idle rfl, List.append_nil, hruns]
      older_run := by
        intro q hq
        refine ⟨(h.older_run q hq).1, (h.older_run q hq).2.imp_right fun hlt => ?_⟩
        exact Nat.lt_of_lt_of_le hlt (by simp [launch])
      newer_run := by
        intro q hq
        rw [List.mem_singleton.1 hq]
      idle := by simp
      current := congrArg (fun l : List (Run V) => some l.length) hruns
      inFlight := rfl
      pending := by
        change s.coordinator.pending = _
        rw [h.pending, h.idle rfl]
        rfl
      completed := h.completed
      renders := h.renders }

theorem runs_enter (h : s.Orderly past (some r) older newer) (p : Phase V) :
    (s.enter past.length p).runs = past ++ [{ r with phase := p }] := by
  unfold Session.enter
  rw [h.runs]
  exact modify_concat past r _

/-- The run in flight takes a step other than the last one. -/
theorem enter (h : s.Orderly past (some r) older newer) (g : ScopeGraph V) {n : Nat}
    (hopen : p.isEnded = false) (hn : n = past.length + p.isAnnounced.toNat) :
    Orderly { s.enter past.length p with
        graph := g, coordinator := { s.coordinator with renders := n } }
      past (some { r with phase := p }) older newer := by
  exact
    { runs := h.runs_enter p
      ended := h.ended
      running := by
        intro r' hr'
        rw [← Option.some.inj hr']
        exact hopen
      requests := h.requests
      older_run := by
        intro q hq
        refine ⟨(h.older_run q hq).1, (h.older_run q hq).2.imp_right fun hlt => ?_⟩
        change _ < (s.enter past.length p).runs.length
        rwa [length_enter]
      newer_run := h.newer_run
      idle := by simp
      current := h.current
      inFlight := h.inFlight
      pending := h.pending
      completed := h.completed
      renders := hn }

/-- The run in flight ends, and the last request that came during it gets one more. -/
theorem complete (h : s.Orderly past (some r) older newer) (o : LoadOutcome V)
    (hannounced : r.phase.isAnnounced = true) :
    (s.complete past.length o).Orderly (past ++ [{ r with phase := .ended o }])
      ((joined newer).getLast?.map fun trigger => { trigger := trigger }) (older ++ newer) [] := by
  have hruns : (s.complete past.length o).runs = past ++ [{ r with phase := .ended o }] ++
      ((joined newer).getLast?.map fun trigger => ({ trigger := trigger } : Run V)).toList := by
    rw [runs_complete, h.pending, h.runs_enter]
  have hlength : (past ++ [{ r with phase := Phase.ended o }]).length = past.length + 1 :=
    List.length_append
  have htotal : (s.complete past.length o).runs.length = past.length + 1 +
      ((joined newer).getLast?.map fun trigger => ({ trigger := trigger } : Run V)).toList.length := by
    rw [hruns, List.length_append, hlength]
  exact
    { runs := hruns
      ended := by
        intro r' hr'
        rcases List.mem_append.1 hr' with hr' | hr'
        · exact h.ended r' hr'
        · rw [List.mem_singleton.1 hr']
          rfl
      running := by
        intro r' hr'
        obtain ⟨trigger, -, rfl⟩ := Option.map_eq_some_iff.1 hr'
        rfl
      requests := by
        rw [requests_complete, h.requests, List.append_nil]
      older_run := by
        intro q hq
        rw [hlength, htotal]
        rcases List.mem_append.1 hq with hq | hq
        · have hlt := (h.older_run q hq).1
          exact ⟨Nat.lt_succ_of_lt hlt, .inr (Nat.lt_add_right _ (Nat.succ_lt_succ hlt))⟩
        · rw [h.newer_run q hq]
          refine ⟨Nat.lt_succ_self _, ?_⟩
          cases hs : q.started with
          | true => exact .inl rfl
          | false =>
            -- A request that joined the run has left something pending.
            refine .inr (Nat.lt_add_of_pos_right ?_)
            rw [List.getLast?_eq_some_getLast (joined_ne_nil hq hs)]
            exact Nat.one_pos
      newer_run := by simp
      idle _ := rfl
      current := by
        rw [current_complete, h.pending, Option.map_map, h.runs]
        exact congrArg (fun n => (joined newer).getLast?.map fun _ => n) (by simp)
      inFlight := by
        rw [coordinator_complete, Option.map_map]
        exact h.pending.trans (by simp [Function.comp_def])
      pending := by
        rw [coordinator_complete]
        rfl
      completed := by
        rw [coordinator_complete, hlength]
        exact congrArg (· + 1) h.completed
      renders := by
        rw [coordinator_complete, hlength]
        refine h.renders.trans ?_
        rw [Option.any_some, hannounced]
        cases (joined newer).getLast? with
        | none => rfl
        | some trigger => rfl }

theorem step (h : s.Orderly past now older newer) {e : Event V} {s' : Session V}
    (hstep : Event.Step s e s') : ∃ past now older newer, s'.Orderly past now older newer := by
  -- A run that can take a step is the one in flight.
  have hnow : ∀ {k p}, s.phase? k = some p → p.isEnded = false → k = past.length ∧
      s.coordinator.renders = past.length + p.isAnnounced.toNat ∧
      ∃ r, r.phase = p ∧ s.Orderly past (some r) older newer := by
    intro k p hp hopen
    obtain ⟨hk, r, rfl, rfl⟩ := h.eq_of_phase? hp hopen
    exact ⟨hk, h.renders, r, rfl, h⟩
  cases hstep with
  | none => exact ⟨_, _, _, _, h⟩
  | request trigger waiter =>
    cases now with
    | none => exact ⟨_, _, _, _, h.request_none trigger waiter⟩
    | some r => exact ⟨_, _, _, _, h.request_some trigger waiter⟩
  | begin hp =>
    obtain ⟨rfl, hn, r, -, h⟩ := hnow hp rfl
    exact ⟨_, _, _, _, h.enter s.graph rfl hn⟩
  | load hp =>
    obtain ⟨rfl, hn, r, -, h⟩ := hnow hp rfl
    exact ⟨_, _, _, _, h.enter s.graph rfl hn⟩
  | write hp =>
    obtain ⟨rfl, hn, r, -, h⟩ := hnow hp rfl
    exact ⟨_, _, _, _, h.enter _ rfl hn⟩
  | announce hp =>
    obtain ⟨rfl, hn, r, -, h⟩ := hnow hp rfl
    exact ⟨_, _, _, _, h.enter s.graph rfl (congrArg (· + 1) hn)⟩
  | complete hp =>
    obtain ⟨rfl, -, r, hr, h⟩ := hnow hp rfl
    exact ⟨_, _, _, _, h.complete _ (by rw [hr]; rfl)⟩
  | operate op => exact ⟨_, _, _, _, h.operate _⟩

theorem run (h : s.Orderly past now older newer) (events : List (Event V)) :
    ∃ past now older newer, (Event.run events s).Orderly past now older newer := by
  induction events generalizing s past now older newer with
  | nil => exact ⟨_, _, _, _, h⟩
  | cons e events ih =>
    obtain ⟨_, _, _, _, he⟩ := h.step (Event.step_apply e s)
    exact ih he

end Orderly

end Session

end LiveNotes.Refresh
