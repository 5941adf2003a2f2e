import LiveNotes.Loader.Report
import LiveNotes.Proofs.Json.Limits

/-! What a report holds. A timeline keeps the first events that are recorded, as many as there is room
for. All that a report holds is within limits but for the text of its error and the place that it points
to, which are written in full. -/

namespace LiveNotes

/-- An event as a timeline keeps it. -/
def TimelineEvent.kept (e : TimelineEvent) : TimelineEvent := { e with data := e.data.bounded }

namespace Timeline

variable {t : Timeline}

/-- Records events one after the other. -/
def recordAll (t : Timeline) (events : List TimelineEvent) : Timeline :=
  events.foldl (fun t e => t.record e.moment e.stage e.data) t

theorem toList_record (h : t.events.size ≤ maxEvents) (e : TimelineEvent) :
    (t.record e.moment e.stage e.data).events.toList = (t.events.toList ++ [e.kept]).take maxEvents := by
  unfold record
  split
  · next hfull =>
    rw [List.take_append_of_le_length hfull]
    exact (List.take_of_length_le h).symm
  · next hroom =>
    have hlength : (t.events.toList ++ [e.kept]).length ≤ maxEvents := by
      rw [List.length_append]
      exact Nat.lt_of_not_le hroom
    rw [Array.toList_push, List.take_of_length_le hlength]
    rfl

/-- What some entries leave no room for, more entries behind them have no room for either. -/
theorem take_take_append {α : Type} (n : Nat) (l more : List α) :
    (l.take n ++ more).take n = (l ++ more).take n := by
  rw [List.take_append, List.take_append, List.take_take, Nat.min_self, List.length_take]
  congr 2
  omega

theorem toList_recordAll (h : t.events.size ≤ maxEvents) (events : List TimelineEvent) :
    (t.recordAll events).events.toList =
      (t.events.toList ++ events.map TimelineEvent.kept).take maxEvents := by
  induction events generalizing t with
  | nil => simpa [recordAll] using (List.take_of_length_le h).symm
  | cons e events ih =>
    change ((t.record e.moment e.stage e.data).recordAll events).events.toList = _
    rw [ih (size_record_le h _ _ _), toList_record h, take_take_append, List.map_cons, List.append_assoc]
    rfl

theorem length_recordAll_le (events : List TimelineEvent) :
    (recordAll {} events).events.toList.length ≤ maxEvents := by
  rw [toList_recordAll (Nat.zero_le _)]
  exact List.length_take_le _ _

theorem exists_kept {events : List TimelineEvent} {e : TimelineEvent}
    (h : e ∈ (recordAll {} events).events.toList) : ∃ e' ∈ events, e = e'.kept := by
  rw [toList_recordAll (Nat.zero_le _)] at h
  obtain ⟨e', hmem, heq⟩ := List.mem_map.1 (List.mem_of_mem_take h)
  exact ⟨e', hmem, heq.symm⟩

end Timeline

namespace Report

open Json

variable {r : Report}

/-- A report within all limits, as it is written. -/
structure Within (r : Report) : Prop where
  texts : r.toJson.TextsWithin maxTextLength
  entries : ∀ name v, name ≠ "timeline" → r.toJson.field? name = some v → v.EntriesWithin maxEntries
  timeline : ∃ events, r.toJson.field? "timeline" = some (.array events) ∧
    events.length ≤ Timeline.maxEvents ∧ ∀ e ∈ events, e.EntriesWithin maxEntries
  nesting : ∀ name ∈ ["error", "context"], ∃ v, r.toJson.field? name = some v ∧ v.NestsWithin 6
  data : ∀ events, r.toJson.field? "timeline" = some (.array events) →
    ∀ e ∈ events, ∃ v, e.field? "data" = some v ∧ v.NestsWithin 6

theorem isTruncated_name (r : Report) :
    Text.IsTruncated maxTextLength r.phase.name ∧ Text.IsTruncated maxTextLength r.trigger.name := by
  constructor
  · cases r.phase with
    | _ => exact .inl (by decide)
  · cases r.trigger with
    | _ => exact .inl (by decide)

/-- The texts that are not cut to size: those of the clock, the names of the stages, and those of the error. -/
structure Short (r : Report) : Prop where
  moment : Text.IsTruncated maxTextLength r.moment
  event : ∀ e ∈ r.timeline.events.toList,
    Text.IsTruncated maxTextLength e.moment ∧ Text.IsTruncated maxTextLength e.stage
  message : ∀ e, r.failure = some e → Text.IsTruncated maxTextLength e.message
  stack : ∀ e s, r.failure = some e → e.stack = some s → Text.IsTruncated maxTextLength s

theorem textsWithin_error (r : Report) :
    (Json.ofOption (r.failure.map fun e => e.toJson.bounded)).TextsWithin maxTextLength := by
  cases r.failure with
  | none => exact textsWithin_null
  | some e => exact textsWithin_bounded _

theorem textsWithin_event {e : TimelineEvent} (h : e.data.TextsWithin maxTextLength) :
    e.toJson.TextsWithin maxTextLength ↔
      Text.IsTruncated maxTextLength e.moment ∧ Text.IsTruncated maxTextLength e.stage := by
  simp [TimelineEvent.toJson, h]

theorem textsWithin_iff_short (h : ∀ e ∈ r.timeline.events.toList, e.data.TextsWithin maxTextLength) :
    r.toJson.TextsWithin maxTextLength ↔ Short r := by
  have hevents : (∀ e ∈ r.timeline.events.toList, e.toJson.TextsWithin maxTextLength) ↔
      ∀ e ∈ r.timeline.events.toList,
        Text.IsTruncated maxTextLength e.moment ∧ Text.IsTruncated maxTextLength e.stage :=
    forall₂_congr fun e he => textsWithin_event (h e he)
  have hmessage : (Json.optionalText (r.failure.map Error.message)).TextsWithin maxTextLength ↔
      ∀ e, r.failure = some e → Text.IsTruncated maxTextLength e.message := by
    simp
  have hstack : (Json.optionalText (r.failure.bind Error.stack)).TextsWithin maxTextLength ↔
      ∀ e s, r.failure = some e → e.stack = some s → Text.IsTruncated maxTextLength s := by
    simp only [textsWithin_optionalText, Option.bind_eq_some_iff]
    constructor
    · exact fun hs e s he hes => hs s ⟨e, he, hes⟩
    · rintro hs s ⟨e, he, hes⟩
      exact hs e s he hes
  obtain ⟨hphase, htrigger⟩ := isTruncated_name r
  unfold toJson
  rw [textsWithin_object]
  simp only [List.forall_mem_cons, List.not_mem_nil, false_implies, implies_true, and_true,
    textsWithin_text, textsWithin_bool, textsWithin_bounded, textsWithin_array, List.forall_mem_map,
    hphase, htrigger, hevents, hmessage, hstack, textsWithin_error, true_and]
  constructor
  · rintro ⟨hmoment, hmessages, hstacks, hstages⟩
    exact ⟨hmoment, hstages, hmessages, hstacks⟩
  · rintro ⟨hmoment, hstages, hmessages, hstacks⟩
    exact ⟨hmoment, hmessages, hstacks, hstages⟩

theorem entriesWithin_error (r : Report) :
    (Json.ofOption (r.failure.map fun e => e.toJson.bounded)).EntriesWithin maxEntries := by
  cases r.failure with
  | none => exact entriesWithin_of_scalar rfl
  | some e => exact entriesWithin_bounded _

theorem nestsWithin_error (r : Report) :
    (Json.ofOption (r.failure.map fun e => e.toJson.bounded)).NestsWithin 6 := by
  cases r.failure with
  | none => exact fun c hc => absurd hc List.not_mem_nil
  | some e => exact nestsWithin_bounded _

theorem entriesWithin_event {e : TimelineEvent} (h : e.data.EntriesWithin maxEntries) :
    e.toJson.EntriesWithin maxEntries := by
  rw [EntriesWithin, all_iff]
  refine ⟨Nat.le_add_left 3 197, fun c hc => ?_⟩
  obtain rfl | rfl | rfl : c = .text e.moment ∨ c = .text e.stage ∨ c = e.data := by
    simpa [TimelineEvent.toJson, children] using hc
  · exact entriesWithin_of_scalar rfl
  · exact entriesWithin_of_scalar rfl
  · exact h

/-- Of a report without its timeline, all entries are within the limit whatever its parts are. -/
theorem entriesWithin_field (r : Report) {name : String} {v : Json} (hname : name ≠ "timeline")
    (hv : r.toJson.field? name = some v) : v.EntriesWithin maxEntries := by
  obtain ⟨before, after, hsplit, -⟩ := List.lookup_eq_some_iff.1 hv
  have hmem : (name, v) ∈ before ++ (name, v) :: after := List.mem_append_cons_self
  rw [← hsplit] at hmem
  simp only [List.mem_cons, Prod.mk.injEq, List.not_mem_nil, or_false] at hmem
  rcases hmem with ⟨-, rfl⟩ | ⟨-, rfl⟩ | ⟨-, rfl⟩ | ⟨-, rfl⟩ | ⟨-, rfl⟩ | ⟨-, rfl⟩ | ⟨-, rfl⟩ | ⟨-, rfl⟩ | ⟨h, -⟩
  · exact entriesWithin_of_scalar rfl
  · exact entriesWithin_of_scalar rfl
  · exact entriesWithin_of_scalar rfl
  · exact entriesWithin_of_scalar rfl
  · exact entriesWithin_optionalText _
  · exact entriesWithin_optionalText _
  · exact entriesWithin_error r
  · exact entriesWithin_bounded _
  · exact absurd h hname

/-- A report with any events is within all limits exactly when its clock, its stages and the texts of its
error are. -/
theorem within_iff_short (phase : LoadPhase) (trigger : LoadTrigger) (moment : String)
    (failure : Option Error) (context : Json) (events : List TimelineEvent) :
    Within ⟨phase, trigger, moment, failure, context, Timeline.recordAll {} events⟩ ↔
      Short ⟨phase, trigger, moment, failure, context, Timeline.recordAll {} events⟩ := by
  have hkept : ∀ e ∈ (Timeline.recordAll {} events).events.toList, ∃ e' ∈ events, e = e'.kept :=
    fun _ => Timeline.exists_kept
  have hshort := textsWithin_iff_short
    (r := ⟨phase, trigger, moment, failure, context, Timeline.recordAll {} events⟩) fun e he => by
      obtain ⟨e', -, rfl⟩ := hkept e he
      exact textsWithin_bounded _
  refine ⟨fun h => hshort.1 h.texts, fun h => ⟨hshort.2 h, fun _ _ => entriesWithin_field _, ?_, ?_, ?_⟩⟩
  · refine ⟨_, rfl, ?_, List.forall_mem_map.2 fun e he => ?_⟩
    · rw [List.length_map]
      exact Timeline.length_recordAll_le events
    · obtain ⟨e', -, rfl⟩ := hkept e he
      exact entriesWithin_event (entriesWithin_bounded _)
  · intro name hname
    obtain rfl | rfl : name = "error" ∨ name = "context" := by simpa using hname
    · exact ⟨_, rfl, nestsWithin_error _⟩
    · exact ⟨_, rfl, nestsWithin_bounded _⟩
  · intro written hwritten
    cases Option.some.inj hwritten
    refine List.forall_mem_map.2 fun e he => ?_
    obtain ⟨e', -, rfl⟩ := hkept e he
    exact ⟨_, rfl, nestsWithin_bounded _⟩

theorem not_isTruncated_append {max n : Nat} (start : String) (hstart : start.toList.length ≤ max)
    (hlong : max < start.toList.length + n) :
    ¬ Text.IsTruncated max (start ++ String.ofList (List.replicate n 'x')) := by
  intro h
  have hchars : (start ++ String.ofList (List.replicate n 'x')).toList =
      start.toList ++ List.replicate n 'x' := by
    rw [String.toList_append, String.toList_ofList]
  have hmark := h.getElem? (by rwa [hchars, List.length_append, List.length_replicate])
  rw [hchars, List.getElem?_append_right hstart, List.getElem?_replicate, if_pos (by omega)] at hmark
  exact absurd (Option.some.inj hmark) (by decide)

/-- An error with a long text is written with all of it. -/
theorem not_within_longText : ¬ Within ⟨.evaluate, .refresh, "2024-01-01T00:00:00Z",
    some (.evaluation (String.ofList (List.replicate 2100 'x')) none), .object [],
    Timeline.recordAll {} []⟩ := by
  intro h
  have hshort := (textsWithin_iff_short fun e he => absurd he List.not_mem_nil).1 h.texts
  have hmessage := hshort.message _ rfl
  exact not_isTruncated_append "Module evaluation failed: " (by decide) (by decide) hmessage

end Report

end LiveNotes
