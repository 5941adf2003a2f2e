import LiveNotes.Proofs.Loader.Search
import LiveNotes.Proofs.Numbered
import Mathlib.Data.List.Nodup

/-! How a load ends, and what it leaves behind. The store, the bundler and the host decide on the ending;
the ending decides on the outcome, on the report and on the notices. -/

namespace LiveNotes.Loader

variable {V : Type} {l : Loader V} {d : Desk} {trigger : LoadTrigger}

/-! ### Endings -/

/-- How a load ends: without an index file, without a bundle, without an import, or with what the
components export. -/
inductive Ending (V : Type) where
  | unfound (e : Error)
  | unbundled (entry : String) (e : Error)
  | unimported (entry : String) (b : Bundle) (e : Error)
  | imported (entry : String) (b : Bundle) (exports : Exports V)

namespace Ending

def ok : Ending V → Bool
  | imported .. => true
  | _ => false

def exports : Ending V → Exports V
  | imported _ _ exports => exports
  | _ => []

/-- The stage that the load ended in. -/
def phase : Ending V → LoadPhase
  | unfound _ | unbundled .. => .bundle
  | unimported .. => .evaluate
  | imported .. => .success

def failure : Ending V → Option Error
  | unfound e | unbundled _ e | unimported _ _ e => some e
  | imported .. => none

/-- The code that was handed to the host. -/
def code? : Ending V → Option String
  | unimported _ b _ | imported _ b _ => some b.code
  | _ => none

/-- The stages behind the search for the index file, with the data on each. -/
def stages : Ending V → List (String × Json)
  | unfound _ => []
  | unbundled entry e => [("bundle.start", .ofFields [("entry", .text entry)]), ("bundle.error", errorData e)]
  | unimported entry b e =>
    [("bundle.start", .ofFields [("entry", .text entry)]), ("bundle.done", bundleData b),
      ("import.start", .ofFields [("bytes", .nat b.code.utf8ByteSize)]), ("import.error", errorData e)]
  | imported entry b exports =>
    [("bundle.start", .ofFields [("entry", .text entry)]), ("bundle.done", bundleData b),
      ("import.start", .ofFields [("bytes", .nat b.code.utf8ByteSize)]),
      ("import.done", .ofFields [("exports", .texts exports.names)])]

/-- What a report tells besides. -/
def context (folders : List String) : Ending V → List (String × Json)
  | unfound _ => [("folders", .texts folders)]
  | unbundled entry _ => [("folders", .texts folders), ("entry", .text entry)]
  | unimported entry b _ =>
    [("bundledCodePreview", .text (String.ofList (b.code.toList.take previewSize))),
      ("folders", .texts folders), ("entry", .text entry)]
  | imported entry _ exports =>
    [("exports", .texts exports.names), ("folders", .texts folders), ("entry", .text entry)]

end Ending

/-- The ending that the answers of the store, the bundler and the host lead to. -/
def ending (l : Loader V) (d : Desk) : Ending V :=
  match index? d.store d.folders with
  | none => .unfound (.indexNotFound d.folders (indexCandidates d.folders))
  | some entry =>
    match l.bundle d.store entry with
    | .error e => .unbundled entry e
    | .ok b =>
      match (l.importCode d b.code).1 with
      | .error e => .unimported entry b e
      | .ok exports => .imported entry b exports

/-- All stages of a load. -/
def history (l : Loader V) (d : Desk) (trigger : LoadTrigger) : List TimelineEvent :=
  ⟨l.moment, "load.start", .ofFields [("trigger", .text trigger.name), ("folders", .texts d.folders)]⟩ ::
    trials d.store l.moment (indexCandidates d.folders) ++
    (l.ending d).stages.map fun (stage, data) => ⟨l.moment, stage, data⟩

/-- The report on a load. -/
def report (l : Loader V) (d : Desk) (trigger : LoadTrigger) : Report where
  phase := (l.ending d).phase
  trigger := trigger
  moment := l.moment
  failure := (l.ending d).failure
  context := .ofFields ((l.ending d).context d.folders)
  timeline := Timeline.recordAll {} (l.history d trigger)

/-! ### What is left behind -/

/-- What the user is told of a report, which was written or was not. -/
def reportNotices (r : Report) (written : Bool) : List String :=
  match r.failure with
  | none => []
  | some e =>
    failureNotice r.phase e :: if written then ["Debug details written to " ++ Path.reportPath] else []

/-- A desk with a report and the notices on it. -/
def reported (d : Desk) (r : Report) : Desk :=
  let written := (d.store.write Path.reportPath r.render).toOption
  { d with
    store := written.getD d.store
    notices := d.notices ++ reportNotices r written.isSome }

/-- A desk from which code was handed to the host, or none. -/
def handedOver (l : Loader V) (d : Desk) : Option String → Desk
  | none => d
  | some code => (l.importCode d code).2

theorem fail_eq (l : Loader V) (d : Desk) (phase : LoadPhase) (trigger : LoadTrigger)
    (context : List (String × Json)) (t : Timeline) (e : Error) :
    l.fail d phase trigger context t e =
      ({ ok := false }, reported d ⟨phase, trigger, l.moment, some e, .ofFields context, t⟩) := by
  unfold fail reported Report.save
  dsimp only
  cases d.store.write Path.reportPath _ with
  | ok store => rfl
  | error fault => rfl

theorem reported_of_success {r : Report} (h : r.failure = none) :
    reported d r = { d with store := (r.save d.store).2 } := by
  unfold reported reportNotices Report.save
  rw [h]
  cases d.store.write Path.reportPath r.render with
  | ok store => simp [Except.toOption]
  | error fault => simp [Except.toOption]

/-- The timeline of a load that is through with its search. -/
def searched (l : Loader V) (d : Desk) (trigger : LoadTrigger) : Timeline :=
  (({} : Timeline).record l.moment "load.start"
    (.ofFields [("trigger", .text trigger.name), ("folders", .texts d.folders)])).recordAll
      (trials d.store l.moment (indexCandidates d.folders))

/-- The timeline with more stages. -/
def recordStages (l : Loader V) (t : Timeline) (stages : List (String × Json)) : Timeline :=
  stages.foldl (fun t (stage, data) => t.record l.moment stage data) t

theorem recordAll_history (l : Loader V) (d : Desk) (trigger : LoadTrigger) :
    Timeline.recordAll {} (l.history d trigger) =
      l.recordStages (l.searched d trigger) (l.ending d).stages := by
  simp only [history, searched, recordStages, Timeline.recordAll, List.foldl_append, List.foldl_cons,
    List.foldl_map]

theorem report_of_ending (trigger : LoadTrigger) {e : Ending V} (h : l.ending d = e) :
    l.report d trigger = ⟨e.phase, trigger, l.moment, e.failure, .ofFields (e.context d.folders),
      l.recordStages (l.searched d trigger) e.stages⟩ := by
  rw [report, recordAll_history, h]

theorem ending_of_unfound (h : index? d.store d.folders = none) :
    l.ending d = .unfound (.indexNotFound d.folders (indexCandidates d.folders)) := by
  rw [ending, h]

section Found

variable {entry : String} {b : Bundle} {e : Error} {exports : Exports V}

theorem ending_of_unbundled (hindex : index? d.store d.folders = some entry)
    (hbundle : l.bundle d.store entry = .error e) : l.ending d = .unbundled entry e := by
  simp only [ending, hindex, hbundle]

theorem ending_of_unimported (hindex : index? d.store d.folders = some entry)
    (hbundle : l.bundle d.store entry = .ok b) (himport : (l.importCode d b.code).1 = .error e) :
    l.ending d = .unimported entry b e := by
  simp only [ending, hindex, hbundle, himport]

theorem ending_of_imported (hindex : index? d.store d.folders = some entry)
    (hbundle : l.bundle d.store entry = .ok b) (himport : (l.importCode d b.code).1 = .ok exports) :
    l.ending d = .imported entry b exports := by
  simp only [ending, hindex, hbundle, himport]

end Found

/-- The part of a load behind the bundler. -/
theorem importBundle_eq {entry : String} {b : Bundle} (hindex : index? d.store d.folders = some entry)
    (hbundle : l.bundle d.store entry = .ok b) :
    l.importBundle d trigger entry b
        ((l.searched d trigger).record l.moment "bundle.start" (.ofFields [("entry", .text entry)])) =
      (⟨(l.ending d).exports, (l.ending d).ok⟩,
        reported (l.handedOver d (l.ending d).code?) (l.report d trigger)) := by
  unfold importBundle
  dsimp only
  cases himport : l.importCode d b.code with
  | mk answer after =>
    have hafter : l.handedOver d (some b.code) = after := by rw [handedOver, himport]
    cases answer with
    | error e =>
      have hending := ending_of_unimported hindex hbundle (by rw [himport])
      have hcode : (l.ending d).code? = some b.code := by rw [hending, Ending.code?]
      rw [report_of_ending trigger hending, hcode, hafter, hending]
      simp only [Ending.stages, recordStages, List.foldl_cons, List.foldl_nil]
      exact fail_eq ..
    | ok exports =>
      have hending := ending_of_imported hindex hbundle (by rw [himport])
      have hcode : (l.ending d).code? = some b.code := by rw [hending, Ending.code?]
      rw [report_of_ending trigger hending, hcode, hafter, hending, reported_of_success rfl]
      simp only [Ending.stages, recordStages, List.foldl_cons, List.foldl_nil]
      rfl

theorem load_eq (l : Loader V) (d : Desk) (trigger : LoadTrigger) :
    l.load d trigger = (⟨(l.ending d).exports, (l.ending d).ok⟩,
      reported (l.handedOver d (l.ending d).code?) (l.report d trigger)) := by
  unfold load
  dsimp only
  cases hindex : index? d.store d.folders with
  | none =>
    have hending := ending_of_unfound (l := l) hindex
    rw [findIndex_of_none hindex, report_of_ending trigger hending, hending]
    exact fail_eq ..
  | some entry =>
    rw [findIndex_of_some hindex]
    dsimp only
    cases hbundle : l.bundle d.store entry with
    | error e =>
      have hending := ending_of_unbundled hindex hbundle
      rw [report_of_ending trigger hending, hending]
      exact fail_eq ..
    | ok b => exact importBundle_eq hindex hbundle

/-- A report tells the stage that a load ended in, and what kept it from going on. -/
structure Tells (l : Loader V) (d : Desk) (r : Report) : Prop where
  unfound : index? d.store d.folders = none →
    r.phase = .bundle ∧ r.failure = some (.indexNotFound d.folders (indexCandidates d.folders))
  unbundled : ∀ entry e, index? d.store d.folders = some entry → l.bundle d.store entry = .error e →
    r.phase = .bundle ∧ r.failure = some e
  unimported : ∀ entry b e, index? d.store d.folders = some entry → l.bundle d.store entry = .ok b →
    (l.importCode d b.code).1 = .error e → r.phase = .evaluate ∧ r.failure = some e
  imported : ∀ entry b exports, index? d.store d.folders = some entry → l.bundle d.store entry = .ok b →
    (l.importCode d b.code).1 = .ok exports → r.phase = .success ∧ r.failure = none

/-- What a load from a desk gives, and what it changes. -/
structure Settles (l : Loader V) (d : Desk) (trigger : LoadTrigger) (outcome : LoadOutcome V) (after : Desk) :
    Prop where
  ok : outcome.ok = true ↔ ∃ entry b exports, index? d.store d.folders = some entry ∧
    l.bundle d.store entry = .ok b ∧ (l.importCode d b.code).1 = .ok exports ∧ outcome.exports = exports
  empty : outcome.ok = false → outcome.exports = []
  told : l.Tells d (l.report d trigger) ∧ (l.report d trigger).ok = outcome.ok
  timeline : (l.report d trigger).timeline.events.toList =
    ((l.history d trigger).map TimelineEvent.kept).take Timeline.maxEvents
  store : after.store =
    (d.store.write Path.reportPath (l.report d trigger).render).toOption.getD d.store
  notices : after.notices = d.notices ++ reportNotices (l.report d trigger)
    (d.store.write Path.reportPath (l.report d trigger).render).toOption.isSome
  /-- At most one URL is made, and it is given back. -/
  urls : after.urls = ((l.ending d).code?.map (l.freshCode d.imports)).elim d.urls fun code =>
    l.host.revokeUrl (l.host.createUrl d.urls code).2 (l.host.createUrl d.urls code).1
  folders : after.folders = d.folders

theorem handedOver_eq (l : Loader V) (d : Desk) (code? : Option String) :
    (l.handedOver d code?).store = d.store ∧ (l.handedOver d code?).notices = d.notices ∧
      (l.handedOver d code?).folders = d.folders ∧
      (l.handedOver d code?).urls = (code?.map (l.freshCode d.imports)).elim d.urls fun code =>
        l.host.revokeUrl (l.host.createUrl d.urls code).2 (l.host.createUrl d.urls code).1 := by
  cases code? with
  | none => exact ⟨rfl, rfl, rfl, rfl⟩
  | some code => exact ⟨rfl, rfl, rfl, rfl⟩

theorem store_load (l : Loader V) (d : Desk) (trigger : LoadTrigger) :
    (l.load d trigger).2.store =
      (d.store.write Path.reportPath (l.report d trigger).render).toOption.getD d.store := by
  rw [load_eq, reported, (handedOver_eq l d _).1]

theorem ending_ok_iff :
    (l.ending d).ok = true ↔ ∃ entry b exports, index? d.store d.folders = some entry ∧
      l.bundle d.store entry = .ok b ∧ (l.importCode d b.code).1 = .ok exports ∧
      (l.ending d).exports = exports := by
  constructor
  · intro h
    cases hindex : index? d.store d.folders with
    | none =>
      rw [ending_of_unfound hindex] at h
      contradiction
    | some entry =>
      cases hbundle : l.bundle d.store entry with
      | error e =>
        rw [ending_of_unbundled hindex hbundle] at h
        contradiction
      | ok b =>
        cases himport : (l.importCode d b.code).1 with
        | error e =>
          rw [ending_of_unimported hindex hbundle himport] at h
          contradiction
        | ok exports =>
          rw [ending_of_imported hindex hbundle himport]
          exact ⟨entry, b, exports, rfl, hbundle, himport, rfl⟩
  · rintro ⟨entry, b, exports, hindex, hbundle, himport, -⟩
    rw [ending_of_imported hindex hbundle himport]
    rfl

theorem report_ok (l : Loader V) (d : Desk) (trigger : LoadTrigger) :
    (l.report d trigger).ok = (l.ending d).ok := by
  rw [Report.ok, report]
  cases l.ending d with
  | _ => rfl

theorem timeline_report (l : Loader V) (d : Desk) (trigger : LoadTrigger) :
    (l.report d trigger).timeline.events.toList =
      ((l.history d trigger).map TimelineEvent.kept).take Timeline.maxEvents :=
  Timeline.toList_recordAll (Nat.zero_le _) _

theorem tells_report (l : Loader V) (d : Desk) (trigger : LoadTrigger) : l.Tells d (l.report d trigger) where
  unfound hindex := by
    rw [report_of_ending trigger (ending_of_unfound hindex)]
    exact ⟨rfl, rfl⟩
  unbundled entry e hindex hbundle := by
    rw [report_of_ending trigger (ending_of_unbundled hindex hbundle)]
    exact ⟨rfl, rfl⟩
  unimported entry b e hindex hbundle himport := by
    rw [report_of_ending trigger (ending_of_unimported hindex hbundle himport)]
    exact ⟨rfl, rfl⟩
  imported entry b exports hindex hbundle himport := by
    rw [report_of_ending trigger (ending_of_imported hindex hbundle himport)]
    exact ⟨rfl, rfl⟩

/-- Every load settles: it gives what the host has imported, writes its one report on the way that it went,
gives back what it took from the host and tells of its failure. -/
theorem load_settles (l : Loader V) (d : Desk) (trigger : LoadTrigger) :
    Settles l d trigger (l.load d trigger).1 (l.load d trigger).2 := by
  obtain ⟨hstore, hnotices, hfolders, hurls⟩ := handedOver_eq l d (l.ending d).code?
  rw [load_eq]
  refine ⟨ending_ok_iff, ?_, ⟨tells_report l d trigger, report_ok l d trigger⟩, ?_, ?_, ?_, hurls, hfolders⟩
  · intro hok
    cases hending : l.ending d with
    | imported entry b exports =>
      rw [hending] at hok
      contradiction
    | _ => rfl
  · exact timeline_report l d trigger
  · unfold reported
    rw [hstore]
  · unfold reported
    rw [hstore, hnotices]

/-! ### A search that fills the timeline -/

section Crowded

open LiveNotes.Path Text

theorem isTidy_toString (n : Nat) : IsTidy (toString n).toList where
  backslash h := absurd (isDigit_of_mem_toString h) (by decide)
  single := singleSlashes_of_not_mem (not_mem_toString_slash n)
  last h := not_mem_toString_slash n (List.mem_of_getLast? h)

theorem hasPrefix_dot_toString (n : Nat) : Text.hasPrefix "./" (toString n ++ "/") = false := by
  rw [Text.hasPrefix, Bool.eq_false_iff, ne_eq, List.isPrefixOf_iff_prefix, String.toList_append]
  rintro ⟨rest, hrest⟩
  cases hcs : (toString n).toList with
  | nil => exact absurd (String.toList_eq_nil_iff.1 hcs) (toString_ne_empty n)
  | cons c cs =>
    have hdigit : c.isDigit = true := isDigit_of_mem_toString (n := n) (by rw [hcs]; exact List.mem_cons_self)
    rw [hcs] at hrest
    have hc : '.' = c := (List.cons.inj hrest).1
    exact absurd (hc ▸ hdigit) (by decide)

theorem normalizeFolder_toString (n : Nat) : normalizeFolder (toString n) = toString n := by
  have htrim : trim (toString n) = toString n := by
    rw [trim, trimBoth_eq_self fun c hc => isWhiteSpace_of_isDigit (isDigit_of_mem_toString hc),
      String.ofList_toList]
  have hdot : ¬ ['.', '/'] <+: (toString n).toList := by
    intro h
    exact not_mem_toString_slash n (h.subset (by simp))
  rw [normalizeFolder, htrim, normalize_of_isTidy (isTidy_toString n), withoutDot, undot_eq_self hdot,
    String.ofList_toList]

theorem normalize_indexFile_toString (n : Nat) {extension : String} (h : extension ∈ indexExtensions) :
    Path.normalize (indexFile (toString n) extension) = indexFile (toString n) extension := by
  rw [normalize_of_isTidy (isTidy_indexFile (isTidy_toString n) h),
    withoutDot_indexFile (toString_ne_empty n) (hasPrefix_dot_toString n)]

/-- A vault with as many folders as there are numbers up to 1249, and an index file in the last one. -/
def crowded : Desk :=
  ({ store := .memory { files := [("1249/index.ts", "export const a = 1;")] } } : Desk).withFolders
    ((List.range 1250).map toString)

theorem folders_crowded : crowded.folders = (List.range 1250).map toString := by
  have hnormal : normalizeFolders ((List.range 1250).map toString) = (List.range 1250).map toString := by
    refine normalizeFolders_eq_self (fun v hv => ?_) (List.Nodup.map toString_injective List.nodup_range)
    obtain ⟨n, -, rfl⟩ := List.mem_map.1 hv
    exact ⟨toString_ne_empty n, normalizeFolder_toString n⟩
  have hne : normalizeFolders ((List.range 1250).map toString) ≠ [] := by
    rw [hnormal]
    simp
  rw [crowded, folders_withFolders _ hne, hnormal]

/-- The candidates in front of the index file in the last of some folders with numbers. -/
def candidatesBefore (n : Nat) : List String :=
  indexCandidates ((List.range n).map toString) ++ [indexFile (toString n) "js", indexFile (toString n) "jsx"]

theorem indexCandidates_range (n : Nat) :
    indexCandidates ((List.range n).map toString) =
      (List.range n).flatMap fun i => indexExtensions.map (indexFile (toString i)) := by
  unfold indexCandidates
  rw [List.flatMap_map]
  refine List.flatMap_congr fun i _ => List.map_congr_left fun e he => ?_
  exact normalize_indexFile_toString i he

theorem indexCandidates_succ (n : Nat) :
    indexCandidates ((List.range (n + 1)).map toString) =
      candidatesBefore n ++ indexFile (toString n) "ts" :: [indexFile (toString n) "tsx"] := by
  rw [candidatesBefore, indexCandidates_range, indexCandidates_range, List.range_succ, List.flatMap_append]
  simp [indexExtensions]

theorem length_candidatesBefore (n : Nat) : (candidatesBefore n).length = 4 * n + 2 := by
  rw [candidatesBefore, indexCandidates_range]
  simp [indexExtensions, Nat.mul_comm]

theorem not_mem_candidatesBefore (n : Nat) : indexFile (toString n) "ts" ∉ candidatesBefore n := by
  -- The folder stands in front of the last slash, and the extension behind it.
  have hfolder : ∀ {i : Nat} {e : String}, e ∈ indexExtensions →
      indexFile (toString n) "ts" = indexFile (toString i) e → n = i := by
    intro i e he heq
    have hchars := congrArg String.toList heq
    rw [toList_indexFile, toList_indexFile] at hchars
    have hnames := Text.eq_of_append_slash (indexName_of_mem (by decide)).1 (indexName_of_mem he).1 hchars
    exact toString_injective (String.toList_injective hnames)
  have hextension : ∀ e ∈ ["js", "jsx"], indexFile (toString n) "ts" ≠ indexFile (toString n) e := by
    have hnames : ∀ e ∈ ["js", "jsx"], '/' :: ("index." ++ "ts").toList ≠ '/' :: ("index." ++ e).toList := by
      decide
    intro e he heq
    have hchars := congrArg String.toList heq
    rw [toList_indexFile, toList_indexFile, List.append_cancel_left_eq] at hchars
    exact hnames e he hchars
  rw [candidatesBefore, indexCandidates_range, List.mem_append, not_or]
  constructor
  · rw [List.mem_flatMap]
    rintro ⟨i, hi, hmem⟩
    obtain ⟨e, he, heq⟩ := List.mem_map.1 hmem
    exact absurd (hfolder he heq.symm) (Nat.ne_of_gt (List.mem_range.1 hi))
  · simpa using ⟨hextension "js" (by decide), hextension "jsx" (by decide)⟩

theorem trials_crowded (moment : String) :
    trials crowded.store moment (indexCandidates crowded.folders) =
      (candidatesBefore 1249).map (probeEvent moment false) ++ [probeEvent moment true "1249/index.ts"] := by
  have hfile : indexFile (toString 1249) "ts" = "1249/index.ts" := by decide
  rw [folders_crowded, indexCandidates_succ, hfile]
  exact trials_single _ moment (hfile ▸ not_mem_candidatesBefore 1249)

/-- Nothing behind the search is kept when the search fills the timeline. -/
theorem stage_of_full {l : Loader V} {d : Desk} {trigger : LoadTrigger}
    (h : Timeline.maxEvents ≤ (trials d.store l.moment (indexCandidates d.folders)).length + 1)
    {e : TimelineEvent} (he : e ∈ (l.report d trigger).timeline.events.toList) :
    e.stage = "load.start" ∨ e.stage = "index.probe" := by
  rw [timeline_report, history, List.map_append, List.map_cons, List.take_append_of_le_length (by simpa using h)]
    at he
  rcases List.mem_cons.1 (List.mem_of_mem_take he) with rfl | htrial
  · exact .inl rfl
  · obtain ⟨tried, htried, rfl⟩ := List.mem_map.1 htrial
    rcases List.mem_append.1 htried with hmiss | hhit
    · obtain ⟨path, -, rfl⟩ := List.mem_map.1 hmiss
      exact .inr rfl
    · obtain ⟨path, -, rfl⟩ := List.mem_map.1 hhit
      exact .inr rfl

/-- 4999 trials, of which the last one is a hit, leave no room for what comes then. -/
theorem crowded_keeps_search :
    let l : Loader String := { host := staticHost none }
    (trials crowded.store l.moment (indexCandidates crowded.folders)).length < Timeline.maxEvents ∧
      index? crowded.store crowded.folders = some "1249/index.ts" ∧
      (l.load crowded .refresh).2.store = (crowded.store.write Path.reportPath
        (l.report crowded .refresh).render).toOption.getD crowded.store ∧
      ∀ e ∈ (l.report crowded .refresh).timeline.events.toList, e.stage ≠ "bundle.start" := by
  intro l
  have hlength : (trials crowded.store l.moment (indexCandidates crowded.folders)).length = 4999 := by
    rw [trials_crowded, List.length_append, List.length_map, length_candidatesBefore]
    rfl
  refine ⟨by rw [hlength]; decide, ?_, store_load l crowded .refresh, fun e he hstage => ?_⟩
  · refine index?_single _ (mem_indexCandidates.2 ⟨toString 1249, ?_, "ts", by decide, ?_⟩)
    · rw [folders_crowded]
      exact List.mem_map.2 ⟨1249, by simp, rfl⟩
    · exact normalize_indexFile_toString 1249 (by decide)
  · rcases stage_of_full (by rw [hlength]; decide) he with h | h
    · exact absurd (hstage.symm.trans h) (by decide)
    · exact absurd (hstage.symm.trans h) (by decide)

end Crowded

end LiveNotes.Loader
