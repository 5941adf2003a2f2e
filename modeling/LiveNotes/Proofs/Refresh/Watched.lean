import LiveNotes.Proofs.Fragment.Lines
import LiveNotes.Proofs.Loader.Search
import LiveNotes.Refresh.Auto

/-! The index file of the components, and whether its changes call for a refresh. Loads and the watch over
changes bring folders and paths to their normal forms each on their own. They agree on all folders but
those that start with a dot even then: for these, loads look where the watch does not. The settings have brought the
folders to their normal form before, and where that lays bare one more `./` or white space at an end, the loads and the
watch take it away. -/

namespace LiveNotes.Refresh

open LiveNotes.Path Loader

variable {folder extension path : String} {folders : List String}

/-- A path is the one of a folder or of something in it. -/
def Covers (folder path : String) : Prop := path = folder ∨ Text.hasPrefix (folder ++ "/") path = true

/-- All index files that loads with some folders can find are watched with the same folders. -/
def WatchesFound (folders : List String) : Prop :=
  ∀ (d : Desk) (moment : String) (t : Timeline) (path : String),
    (findIndex d.store moment (d.withFolders folders).folders t).1 = .ok path →
      isDue path folders true true = true

/-- The name of an index file is the one of a source, and not the end of the storage file's. -/
theorem indexName_isSource (h : extension ∈ indexExtensions) :
    (∃ source ∈ sourceExtensions, source.toList <:+ ("index." ++ extension).toList) ∧
      ("index." ++ extension).toList.length ≤ storageFile.toList.length ∧
        ¬ ("index." ++ extension).toList <:+ storageFile.toList := by
  revert extension
  decide

theorem isTidy_of_mem (h : folder ∈ normalizeFolders folders) : IsTidy folder.toList := by
  obtain ⟨-, hmem⟩ := mem_normalizeFolders.1 h
  obtain ⟨value, -, rfl⟩ := List.mem_map.1 hmem
  exact isTidy_normalize _

theorem hasSuffix_indexFile (folder extension : String) :
    Text.hasSuffix ("index." ++ extension) (indexFile folder extension) = true := by
  rw [Text.hasSuffix, toList_indexFile, List.append_cons, List.isSuffixOf_iff_suffix]
  exact List.suffix_append _ _

/-- An index file is a source, so all that counts is where it stands. -/
theorem isSourceIn_iff_covers (he : extension ∈ indexExtensions)
    (h : Text.hasSuffix ("index." ++ extension) path = true) :
    isSourceIn folder path = true ↔ Covers folder path := by
  rw [Text.hasSuffix, List.isSuffixOf_iff_suffix] at h
  obtain ⟨⟨source, hmem, hsuffix⟩, hlength, hstorage⟩ := indexName_isSource he
  have hsource : (sourceExtensions.any fun source => Text.hasSuffix source path) = true :=
    List.any_eq_true.2 ⟨source, hmem, List.isSuffixOf_iff_suffix.2 (hsuffix.trans h)⟩
  have hother : path ≠ folder ++ "/" ++ storageFile := by
    rintro rfl
    have hfile : storageFile.toList <:+ (folder ++ "/" ++ storageFile).toList := by
      rw [String.toList_append]
      exact List.suffix_append _ _
    exact hstorage (List.suffix_of_suffix_length_le h hfile hlength)
  unfold isSourceIn Covers
  simp [hsource, hother]

/-- A change of an index file that was found calls for a refresh when some folder has it. -/
theorem isDue_index_iff (hfolder : IsTidy folder.toList) (he : extension ∈ indexExtensions) :
    isDue (Path.normalize (indexFile folder extension)) folders true true = true ↔
      ∃ g ∈ normalizeFolders folders, Covers g (withoutDot (withoutDot (indexFile folder extension))) := by
  have htidy := isTidy_indexFile hfolder he
  obtain ⟨hslash, -, -⟩ := indexName_of_mem he
  have hsuffix := hasSuffix_withoutDot hslash (hasSuffix_withoutDot hslash (hasSuffix_indexFile folder extension))
  unfold isDue
  rw [normalize_of_isTidy htidy, normalize_of_isTidy (isTidy_withoutDot htidy), Bool.and_self, Bool.true_and,
    List.any_eq_true]
  exact exists_congr fun g => and_congr_right fun _ => isSourceIn_iff_covers he hsuffix

theorem findIndex_single (moment : String) (t : Timeline) (h : path ∈ indexCandidates folders) :
    (findIndex (.memory { files := [(path, "")] }) moment folders t).1 = .ok path := by
  rw [findIndex_of_some (index?_single "" h)]

theorem mem_of_findIndex {store : Store} {moment : String} {t : Timeline}
    (h : (findIndex store moment folders t).1 = .ok path) : path ∈ indexCandidates folders := by
  cases hindex : index? store folders with
  | none =>
    rw [findIndex_of_none hindex] at h
    contradiction
  | some entry =>
    rw [findIndex_of_some hindex] at h
    exact Except.ok.inj h ▸ List.mem_of_find?_eq_some hindex

/-- Every index file that is found is watched, unless it is the one of a folder that starts with a dot in
its normal form, or the one of the folder that stands in for an empty list. -/
theorem index_watched_iff (folders : List String) :
    WatchesFound folders ↔ normalizeFolders folders ≠ [] ∧
      ∀ f ∈ normalizeFolders folders, Text.hasPrefix "./" (f ++ "/") = true → ∀ e ∈ indexExtensions,
        ∃ g ∈ normalizeFolders folders, Covers g (withoutDot (withoutDot (f ++ "/index." ++ e))) := by
  constructor
  · intro h
    have hne : normalizeFolders folders ≠ [] := by
      intro hnil
      have hdefault : ∀ d : Desk, (d.withFolders folders).folders = [defaultFolder] := by
        simp [Desk.withFolders, hnil]
      have hmem : Path.normalize (indexFile defaultFolder "js") ∈ indexCandidates [defaultFolder] :=
        mem_indexCandidates.2 ⟨_, List.mem_singleton_self _, "js", by decide, rfl⟩
      have hdue := h { store := .memory { files := [(Path.normalize (indexFile defaultFolder "js"), "")] } } "" {} _
        (by rw [hdefault]; exact findIndex_single "" {} hmem)
      rw [isDue, hnil] at hdue
      contradiction
    refine ⟨hne, fun f hf _ e he => ?_⟩
    have hmem : Path.normalize (indexFile f e) ∈ indexCandidates (normalizeFolders folders) :=
      mem_indexCandidates.2 ⟨f, hf, e, he, rfl⟩
    have hdue := h { store := .memory { files := [(Path.normalize (indexFile f e), "")] } } "" {} _
      (by rw [folders_withFolders _ hne]; exact findIndex_single "" {} hmem)
    exact (isDue_index_iff (isTidy_of_mem hf) he).1 hdue
  · rintro ⟨hne, hcovers⟩ d moment t path hfound
    rw [folders_withFolders _ hne] at hfound
    obtain ⟨f, hf, e, he, rfl⟩ := mem_indexCandidates.1 (mem_of_findIndex hfound)
    refine (isDue_index_iff (isTidy_of_mem hf) he).2 ?_
    cases hdot : Text.hasPrefix "./" (f ++ "/") with
    | true => exact hcovers f hf hdot e he
    | false =>
      obtain ⟨hf', -⟩ := mem_normalizeFolders.1 hf
      refine ⟨f, hf, .inr ?_⟩
      rw [withoutDot_indexFile hf' hdot, withoutDot_indexFile hf' hdot, Text.hasPrefix_iff]
      exact ⟨"index." ++ e, String.toList_injective (by simp [indexFile])⟩

/-- The index file of the vault itself is found, but not watched. -/
theorem not_watchesFound_dot : ¬ WatchesFound ["."] := by
  intro h
  have hfolders : normalizeFolders ["."] = ["."] := by decide
  have hfound : (findIndex (.memory { files := [("index.js", "")] }) "" ["."] {}).1 = .ok "index.js" :=
    findIndex_single "" {} (by decide)
  have hdue := h { store := .memory { files := [("index.js", "")] } } "" {} "index.js"
    (by rw [folders_withFolders _ (by rw [hfolders]; exact List.cons_ne_nil _ _), hfolders]; exact hfound)
  exact absurd hdue (by decide)

end LiveNotes.Refresh

namespace LiveNotes

open Text LiveNotes.Path Refresh

variable {folder value : String} {folders values : List String}

/-- There is neither white space at the ends of a folder nor a `./` in front of it. -/
def IsBare (folder : String) : Prop := trim folder = folder ∧ hasPrefix "./" folder = false

instance (folder : String) : Decidable (IsBare folder) :=
  inferInstanceAs (Decidable (trim folder = folder ∧ hasPrefix "./" folder = false))

/-! ### One folder -/

theorem trim_eq_self_of_length_le (h : folder.toList.length ≤ (trim folder).toList.length) : trim folder = folder := by
  obtain ⟨lead, tail, hparts, -, -⟩ := Document.exists_trimBoth isWhiteSpace folder.toList
  have htrim : (trim folder).toList = trimBoth isWhiteSpace folder.toList := String.toList_ofList
  have hlength := congrArg List.length hparts
  rw [htrim] at h
  simp only [List.length_append] at hlength
  have hlead : lead = [] := List.eq_nil_of_length_eq_zero (by omega)
  have htail : tail = [] := List.eq_nil_of_length_eq_zero (by omega)
  refine String.toList_injective ?_
  rw [htrim]
  simpa [hlead, htail] using hparts.symm

theorem length_normalize_le (path : String) : (Path.normalize path).toList.length ≤ path.toList.length := by
  have hcollapse := length_collapseSlashes_le false (path.toList.map forwardSlash)
  have hundot := (undot_suffix (collapseSlashes false (path.toList.map forwardSlash))).length_le
  have hdrop := length_dropEnd_le (· == '/') (undot (collapseSlashes false (path.toList.map forwardSlash)))
  rw [List.length_map] at hcollapse
  rw [Path.normalize, String.toList_ofList]
  exact Nat.le_trans hdrop (Nat.le_trans hundot hcollapse)

/-- A tidy folder is in its normal form when it is bare. -/
theorem normalizeFolder_eq_self_iff (h : IsTidy folder.toList) : normalizeFolder folder = folder ↔ IsBare folder := by
  constructor
  · intro hself
    have hle := length_normalize_le (trim folder)
    rw [normalizeFolder] at hself
    have htrim : trim folder = folder := trim_eq_self_of_length_le (by rwa [hself] at hle)
    rw [htrim] at hself
    exact ⟨htrim, (of_normalize_eq_self hself).2⟩
  · rintro ⟨htrim, hdot⟩
    have hstart : ¬ ['.', '/'] <+: folder.toList := by
      rw [← List.isPrefixOf_iff_prefix]
      exact Bool.eq_false_iff.1 hdot
    rw [normalizeFolder, htrim, normalize_of_isTidy h, withoutDot, undot_eq_self hstart, String.ofList_toList]

/-! ### Lists of folders -/

theorem addFolder_eq_or (folders : List String) (value : String) :
    addFolder folders value = folders ∨ addFolder folders value = folders ++ [normalizeFolder value] := by
  unfold addFolder
  dsimp only
  split
  · exact .inl rfl
  · exact .inr rfl

theorem exists_foldl_addFolder (values folders : List String) :
    ∃ more, values.foldl addFolder folders = folders ++ more ∧ more.Sublist (values.map normalizeFolder) := by
  induction values generalizing folders with
  | nil => exact ⟨[], (List.append_nil folders).symm, List.Sublist.refl _⟩
  | cons value values ih =>
    rw [List.foldl_cons, List.map_cons]
    rcases addFolder_eq_or folders value with hsame | hmore
    · obtain ⟨more, hfold, hsub⟩ := ih folders
      refine ⟨more, ?_, hsub.cons _⟩
      rw [hsame, hfold]
    · obtain ⟨more, hfold, hsub⟩ := ih (folders ++ [normalizeFolder value])
      refine ⟨normalizeFolder value :: more, ?_, hsub.cons_cons _⟩
      rw [hmore, hfold, List.append_assoc, List.singleton_append]

/-- A list of folders stays as it is only when each of its folders does. -/
theorem normalizeFolder_eq_self_of_mem (h : normalizeFolders folders = folders) (hf : folder ∈ folders) :
    normalizeFolder folder = folder := by
  obtain ⟨more, hfold, hsub⟩ := exists_foldl_addFolder folders []
  have hmore : folders = more := by rw [← h, normalizeFolders, hfold, List.nil_append]
  subst hmore
  have hmap : folders = folders.map normalizeFolder := hsub.eq_of_length (List.length_map _).symm
  obtain ⟨i, hi, rfl⟩ := List.mem_iff_getElem.1 hf
  have hsame := congrArg (·[i]?) hmap
  simpa [hi] using hsame.symm

/-- A list without repeated folders, each of which some value is normalized to. -/
structure IsNormalList (folders : List String) : Prop where
  nodup : folders.Nodup
  nonempty : "" ∉ folders
  tidy : ∀ f ∈ folders, IsTidy f.toList

theorem isNormalList_normalizeFolders (values : List String) : IsNormalList (normalizeFolders values) := by
  exact ⟨nodup_normalizeFolders values, fun hmem => (mem_normalizeFolders.1 hmem).1 rfl, fun f hf => isTidy_of_mem hf⟩

theorem IsNormalList.normalizeFolders_eq_self_iff (h : IsNormalList folders) :
    normalizeFolders folders = folders ↔ ∀ f ∈ folders, IsBare f := by
  constructor
  · intro hself f hf
    exact (normalizeFolder_eq_self_iff (h.tidy f hf)).1 (normalizeFolder_eq_self_of_mem hself hf)
  · intro hbare
    refine normalizeFolders_eq_self (fun f hf => ⟨?_, (normalizeFolder_eq_self_iff (h.tidy f hf)).2 (hbare f hf)⟩) h.nodup
    rintro rfl
    exact h.nonempty hf

/-! ### Settings -/

/-- The folders that settings name, in their normal form. -/
def Settings.named (s : Settings) : List String :=
  normalizeFolders (if s.folders.isEmpty then [s.folder] else s.folders)

theorem folders_normalized (s : Settings) :
    s.normalized.folders = if s.named.isEmpty then normalizeFolders [defaultFolder] else s.named := rfl

theorem normalizeFolders_default : normalizeFolders [defaultFolder] = [defaultFolder] := by decide

/-- The folders of normal settings; the default one stands in for an empty list. -/
theorem isNormalList_folders (s : Settings) : s.normalized.folders ≠ [] ∧ IsNormalList s.normalized.folders := by
  rw [folders_normalized]
  split
  · exact ⟨by simp [normalizeFolders_default], isNormalList_normalizeFolders _⟩
  · next hfound => exact ⟨by simpa using hfound, isNormalList_normalizeFolders _⟩

/-- A list that the default folder replaces when it is empty is never that folder alone. -/
theorem default_or_eq_self_iff (hne : folders ≠ []) (h : IsNormalList folders) :
    (if (normalizeFolders folders).isEmpty then [defaultFolder] else normalizeFolders folders) = folders ↔
      normalizeFolders folders = folders := by
  split
  · next hempty =>
    constructor
    · rintro rfl
      exact normalizeFolders_default
    · intro hself
      rw [hself] at hempty
      exact absurd (List.isEmpty_iff.1 hempty) hne
  · exact Iff.rfl

theorem normalized_eq_self_iff {s : Settings} (hne : s.folders ≠ []) (hfirst : s.folder = s.folders.headD "")
    (h : IsNormalList s.folders) : s.normalized = s ↔ normalizeFolders s.folders = s.folders := by
  have hnamed : s.named = normalizeFolders s.folders := by simp [Settings.named, hne]
  have hfolders : s.normalized.folders = s.folders ↔ normalizeFolders s.folders = s.folders := by
    rw [folders_normalized, hnamed, normalizeFolders_default]
    exact default_or_eq_self_iff hne h
  rw [← hfolders]
  constructor
  · exact congrArg Settings.folders
  · intro hself
    have heq : s.normalized = { s with folder := s.normalized.folders.headD "", folders := s.normalized.folders } := rfl
    rw [heq, hself, ← hfirst]

theorem folders_withFolders_eq_self_iff (d : Desk) (hne : folders ≠ []) (h : IsNormalList folders) :
    (d.withFolders folders).folders = folders ↔ normalizeFolders folders = folders := default_or_eq_self_iff hne h

/-- What the watch over changes makes of a path when its folders are those given. -/
theorem isDue_of_eq (h : normalizeFolders folders = folders) (path : String) (enabled filesLoaded : Bool) :
    isDue path folders enabled filesLoaded =
      (enabled && filesLoaded && folders.any fun folder => isSourceIn folder (Path.normalize path)) := by
  rw [isDue, h]

/-- Normal settings have folders, all of them different and none of them empty, and the first one stands alone as
well. Settings, loader and watch leave these folders as they are when they normalize them again, just if no folder
starts with `./` or has white space at an end. -/
theorem normalized_stays_iff (s : Settings) :
    (s.normalized.folders ≠ [] ∧ s.normalized.folders.Nodup ∧ "" ∉ s.normalized.folders ∧
      s.normalized.folders.head? = some s.normalized.folder) ∧
    (s.normalized.normalized = s.normalized ↔ ∀ f ∈ s.normalized.folders, IsBare f) ∧
    (∀ d : Desk, (d.withFolders s.normalized.folders).folders = s.normalized.folders ↔
      ∀ f ∈ s.normalized.folders, IsBare f) ∧
    (normalizeFolders s.normalized.folders = s.normalized.folders ↔ ∀ f ∈ s.normalized.folders, IsBare f) ∧
    ((∀ f ∈ s.normalized.folders, IsBare f) → ∀ path enabled filesLoaded,
      isDue path s.normalized.folders enabled filesLoaded = (enabled && filesLoaded &&
        s.normalized.folders.any fun folder => isSourceIn folder (Path.normalize path))) := by
  obtain ⟨hne, hnormal⟩ := isNormalList_folders s
  have hfirst : s.normalized.folder = s.normalized.folders.headD "" := rfl
  have hiff := hnormal.normalizeFolders_eq_self_iff
  have hhead : s.normalized.folders.head? = some s.normalized.folder := by
    obtain ⟨f, more, hcons⟩ := List.exists_cons_of_ne_nil hne
    rw [hfirst, hcons]
    rfl
  refine ⟨⟨hne, hnormal.nodup, hnormal.nonempty, hhead⟩, ?_, fun d => ?_, hiff, fun hbare => ?_⟩
  · exact (normalized_eq_self_iff hne hfirst hnormal).trans hiff
  · exact (folders_withFolders_eq_self_iff d hne hnormal).trans hiff
  · exact isDue_of_eq (hiff.2 hbare)

theorem normalized_stays_iff_default :
    (∀ f ∈ ({} : Settings).normalized.folders, IsBare f) ∧ ({} : Settings).normalized.normalized = ({} : Settings).normalized :=
  ⟨by decide, (normalized_stays_iff {}).2.1.2 (by decide)⟩

/-- Of two dots in front of a folder each normalization takes one, so the settings, the loader and the watch do not
have the same folders. -/
theorem normalized_dots :
    let s : Settings := ({ folders := ["././a"] } : Settings).normalized
    s.folders = ["./a"] ∧ s.normalized ≠ s ∧ s.normalized.folders = ["a"] ∧
      (({ store := .memory {} } : Desk).withFolders s.folders).folders = ["a"] ∧ normalizeFolders s.folders = ["a"] := by
  decide

end LiveNotes
