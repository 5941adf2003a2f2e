import LiveNotes.Loader
import LiveNotes.Proofs.Loader.Report
import LiveNotes.Proofs.Vault.Path

/-! The search for the index file of the components. It finds the first candidate that is there, and tells of
all those in front of it, which are not. -/

namespace LiveNotes.Loader

section Candidates

open LiveNotes.Path

variable {folder extension path : String} {folders : List String}

/-- The file with an extension that may be the index of a folder. -/
def indexFile (folder extension : String) : String := folder ++ "/index." ++ extension

theorem toList_indexFile (folder extension : String) :
    (indexFile folder extension).toList = folder.toList ++ '/' :: ("index." ++ extension).toList := by
  simp [indexFile]

theorem indexName_of_mem (h : extension ∈ indexExtensions) :
    '/' ∉ ("index." ++ extension).toList ∧ '\x5c' ∉ ("index." ++ extension).toList ∧
      ("index." ++ extension).toList ≠ [] := by
  revert extension
  decide

theorem isTidy_indexFile (hfolder : IsTidy folder.toList) (h : extension ∈ indexExtensions) :
    IsTidy (indexFile folder extension).toList := by
  obtain ⟨hslash, hback, hne⟩ := indexName_of_mem h
  rw [toList_indexFile]
  exact hfolder.append_slash hslash hback hne

/-- The dot in front of an index file is the one of its folder. -/
theorem withoutDot_indexFile (hne : folder ≠ "") (h : Text.hasPrefix "./" (folder ++ "/") = false) :
    withoutDot (indexFile folder extension) = indexFile folder extension := by
  have hdot : ¬ ['.', '/'] <+: (indexFile folder extension).toList := by
    rw [toList_indexFile, List.append_cons]
    intro hprefix
    have hlength : ['.', '/'].length ≤ (folder.toList ++ ['/']).length := by
      cases hcs : folder.toList with
      | nil => exact absurd (by simpa using hcs) hne
      | cons c cs => simp
    have hshort := List.prefix_of_prefix_length_le hprefix (List.prefix_append _ _) hlength
    have htrue : Text.hasPrefix "./" (folder ++ "/") = true := by
      rw [Text.hasPrefix, String.toList_append]
      exact List.isPrefixOf_iff_prefix.2 hshort
    rw [htrue] at h
    contradiction
  rw [withoutDot, undot_eq_self hdot, String.ofList_toList]

theorem mem_indexCandidates :
    path ∈ indexCandidates folders ↔
      ∃ f ∈ folders, ∃ e ∈ indexExtensions, Path.normalize (indexFile f e) = path := by
  simp [indexCandidates, indexFile]

theorem folders_withFolders (d : Desk) (h : normalizeFolders folders ≠ []) :
    (d.withFolders folders).folders = normalizeFolders folders := by
  simp [Desk.withFolders, h]

theorem has_single (path text p : String) :
    Store.has (.memory { files := [(path, text)] }) p = (p == path) := by
  cases hp : p == path with
  | true => simp [Store.has, MemoryStore.get?, List.lookup_cons, hp]
  | false => simp [Store.has, MemoryStore.get?, List.lookup_cons, hp]

end Candidates

/-- The index file: the first candidate that is there. -/
def index? (store : Store) (folders : List String) : Option String :=
  (indexCandidates folders).find? store.has

def probeEvent (moment : String) (found : Bool) (path : String) : TimelineEvent :=
  ⟨moment, "index.probe", .ofFields [("path", .text path), ("exists", .bool found)]⟩

/-- The trials of a search: those in front of the first hit, and the hit. -/
def trials (store : Store) (moment : String) (tried : List String) : List TimelineEvent :=
  (tried.takeWhile fun path => !store.has path).map (probeEvent moment false) ++
    (tried.find? store.has).toList.map (probeEvent moment true)

theorem probe_eq (store : Store) (moment : String) (tried : List String) (t : Timeline) :
    probe store moment tried t = (tried.find? store.has, t.recordAll (trials store moment tried)) := by
  induction tried generalizing t with
  | nil => rfl
  | cons path paths ih =>
    rw [probe]
    cases hfound : store.has path with
    | true => simp [trials, hfound, Timeline.recordAll, probeEvent]
    | false =>
      rw [if_neg Bool.false_ne_true, ih]
      simp [trials, hfound, Timeline.recordAll, probeEvent]

theorem findIndex_of_some {store : Store} {folders : List String} {entry : String}
    (h : index? store folders = some entry) (moment : String) (t : Timeline) :
    findIndex store moment folders t =
      (.ok entry, t.recordAll (trials store moment (indexCandidates folders))) := by
  rw [index?] at h
  unfold findIndex
  dsimp only
  rw [probe_eq, h]

theorem findIndex_of_none {store : Store} {folders : List String} (h : index? store folders = none)
    (moment : String) (t : Timeline) :
    findIndex store moment folders t = (.error (.indexNotFound folders (indexCandidates folders)),
      t.recordAll (trials store moment (indexCandidates folders))) := by
  rw [index?] at h
  unfold findIndex
  dsimp only
  rw [probe_eq, h]

/-! ### Vaults with one file -/

/-- A vault with nothing but one of the candidates. -/
theorem index?_single {folders : List String} {path : String} (text : String) (h : path ∈ indexCandidates folders) :
    index? (.memory { files := [(path, text)] }) folders = some path := by
  cases hfind : index? (.memory { files := [(path, text)] }) folders with
  | none =>
    rw [index?, List.find?_eq_none] at hfind
    exact absurd ((has_single path text path).trans (beq_self_eq_true path)) (hfind path h)
  | some found =>
    have hfound := List.find?_some hfind
    rw [has_single, beq_iff_eq] at hfound
    exact congrArg some hfound

/-- All candidates in front of the one that is there are tried in vain. -/
theorem trials_single {front back : List String} {path : String} (text moment : String) (h : path ∉ front) :
    trials (.memory { files := [(path, text)] }) moment (front ++ path :: back) =
      front.map (probeEvent moment false) ++ [probeEvent moment true path] := by
  have hhas : Store.has (.memory { files := [(path, text)] }) = (· == path) := funext (has_single path text)
  have hmiss : ∀ p ∈ front, (p == path) = false := fun p hp => beq_eq_false_iff_ne.2 fun heq => h (heq ▸ hp)
  have hnone : front.find? (· == path) = none := List.find?_eq_none.2 fun p hp => by simp [hmiss p hp]
  rw [trials, hhas, List.takeWhile_append_of_pos fun p hp => by simp [hmiss p hp],
    List.find?_append, hnone]
  simp

end LiveNotes.Loader
