import LiveNotes.Bundle.VaultFiles
import LiveNotes.Proofs.Vault.Path

/-! The files that a relative import may stand for. The first of them that is there is taken, and what is
loaded under its id is that file again, if the path has a normal form. -/

namespace LiveNotes

namespace Path

variable {path s : String}

theorem ofModuleId?_prefix (path : String) : ofModuleId? (modulePrefix ++ path) = some path := by
  have hafter : Text.afterStart? modulePrefix.toList (modulePrefix ++ path).toList = some path.toList := by
    rw [Text.afterStart?_eq_some_iff, String.toList_append]
  rw [ofModuleId?, Text.dropPrefix?, hafter, Option.map_some, String.ofList_toList]

theorem eq_of_ofModuleId? {id : String} (h : ofModuleId? id = some path) : id = modulePrefix ++ path := by
  obtain ⟨rest, hrest, rfl⟩ := Option.map_eq_some_iff.1 h
  rw [← String.ofList_toList (s := id), Text.afterStart?_eq_some_iff.1 hrest, String.ofList_append,
    String.ofList_toList]

theorem of_mem_sourceExtensions {extension : String} (h : extension ∈ sourceExtensions) :
    3 ≤ extension.toList.length ∧ '/' ∉ extension.toList ∧ '\x5c' ∉ extension.toList := by
  have hall : ∀ e ∈ sourceExtensions, 3 ≤ e.toList.length ∧ '/' ∉ e.toList ∧ '\x5c' ∉ e.toList := by decide
  exact hall extension h

theorem isName_append_extension {extension : String} (hs : '/' ∉ s.toList) (h : extension ∈ sourceExtensions) :
    IsName (s ++ extension) := by
  obtain ⟨hlong, hslash, -⟩ := of_mem_sourceExtensions h
  have hlength : 3 ≤ (s ++ extension).toList.length := by
    rw [String.toList_append, List.length_append]
    omega
  -- Neither of the two segments that are no names is as long as an extension.
  have hne : ∀ t : String, t.toList.length < 3 → s ++ extension ≠ t := by
    intro t ht heq
    rw [heq] at hlength
    omega
  refine ⟨⟨hne "" (by decide), ?_⟩, hne "." (by decide), hne ".." (by decide)⟩
  rw [String.toList_append, List.mem_append]
  exact fun hmem => hmem.elim hs hslash

end Path

namespace Bundle

namespace VaultFiles

open Text

variable {store : Store} {specifier importer c : String}

/-! ### Their paths -/

theorem mem_candidates : c ∈ candidates importer specifier ↔ c = Path.resolve importer specifier ∨
    ∃ extension ∈ Path.sourceExtensions, c = Path.resolve importer specifier ++ extension := by
  rw [candidates, List.mem_cons, List.mem_map]
  simp only [eq_comm]

theorem segments_of_mem_candidates (h : c ∈ candidates importer specifier) :
    ∃ segments, c = "/".intercalate segments ∧
      ∀ s ∈ segments, Path.IsSegment s ∧ (s ∈ split '/' importer ∨ s ≠ "." ∧ s ≠ "..") := by
  have hsteps : ∀ s ∈ Path.steps importer specifier, Path.IsSegment s ∧ (s ∈ split '/' importer ∨ s ≠ "." ∧ s ≠ "..") :=
    fun s hs => Path.of_mem_steps hs
  rcases mem_candidates.1 h with rfl | ⟨extension, hextension, rfl⟩
  · exact ⟨_, Path.resolve_eq importer specifier, hsteps⟩
  · rw [Path.resolve_eq]
    rcases List.eq_nil_or_concat (Path.steps importer specifier) with hnil | ⟨init, last, hconcat⟩
    · obtain ⟨hsegment, hname⟩ := Path.isName_append_extension (s := "") (by decide) hextension
      refine ⟨["" ++ extension], ?_, List.forall_mem_singleton.2 ⟨hsegment, Or.inr hname⟩⟩
      rw [hnil, String.intercalate_nil, String.intercalate_singleton]
    · rw [List.concat_eq_append] at hconcat
      rw [hconcat] at hsteps ⊢
      rw [List.forall_mem_append, List.forall_mem_singleton] at hsteps
      obtain ⟨hinit, hlast, -⟩ := hsteps
      obtain ⟨hsegment, hname⟩ := Path.isName_append_extension hlast.2 hextension
      refine ⟨init ++ [last ++ extension], Path.intercalate_concat_append .., ?_⟩
      exact List.forall_mem_append.2 ⟨hinit, List.forall_mem_singleton.2 ⟨hsegment, Or.inr hname⟩⟩

theorem backslash_not_mem_candidate (h : c ∈ candidates importer specifier)
    (hback : '\x5c' ∉ (Path.resolve importer specifier).toList) : '\x5c' ∉ c.toList := by
  rcases mem_candidates.1 h with rfl | ⟨extension, hextension, rfl⟩
  · exact hback
  · rw [String.toList_append, List.mem_append]
    exact fun hmem => hmem.elim hback (Path.of_mem_sourceExtensions hextension).2.2

theorem dotted_of_candidate (h : c ∈ candidates importer specifier) (hdot : hasPrefix "./" c = true) :
    hasPrefix "./" (Path.resolve importer specifier) = true := by
  rcases mem_candidates.1 h with rfl | ⟨extension, hextension, rfl⟩
  · exact hdot
  · have hslash := (Path.of_mem_sourceExtensions hextension).2.1
    obtain ⟨rest, hrest⟩ : ∃ rest, '.' :: '/' :: rest = (Path.resolve importer specifier ++ extension).toList :=
      List.isPrefixOf_iff_prefix.1 hdot
    rw [String.toList_append] at hrest
    rw [hasPrefix, List.isPrefixOf_iff_prefix]
    -- An extension has no slash, so that of the dot and the slash in front is in the path itself.
    cases hpath : (Path.resolve importer specifier).toList with
    | nil =>
      rw [hpath, List.nil_append] at hrest
      exact absurd (hrest ▸ by simp) hslash
    | cons x more =>
      rw [hpath, List.cons_append] at hrest
      obtain ⟨rfl, htail⟩ := List.cons.inj hrest
      cases more with
      | nil =>
        rw [List.nil_append] at htail
        exact absurd (htail ▸ by simp) hslash
      | cons y more =>
        obtain ⟨rfl, -⟩ := List.cons.inj htail
        exact List.prefix_append ['.', '/'] more

theorem normalize_candidate (h : c ∈ candidates importer specifier)
    (hback : '\x5c' ∉ (Path.resolve importer specifier).toList)
    (hdot : hasPrefix "./" (Path.resolve importer specifier) = false) : Path.normalize c = c := by
  have hundotted : hasPrefix "./" c = false := by
    rw [Bool.eq_false_iff]
    exact fun hc => Bool.eq_false_iff.1 hdot (dotted_of_candidate h hc)
  have hcback := backslash_not_mem_candidate h hback
  obtain ⟨segments, rfl, hsegments⟩ := segments_of_mem_candidates h
  rw [Path.normalize_intercalate (fun s hs => (hsegments s hs).1) hcback, Path.dropDot_eq_self hundotted]

/-! ### What is found and what is loaded -/

/-- The paths that are tried for a relative import, in their order. -/
def tried (importer specifier : String) : List String :=
  ["", ".js", ".jsx", ".ts", ".tsx", ".css"].map (Path.resolve importer specifier ++ ·)

theorem candidates_eq_tried (importer specifier : String) :
    candidates importer specifier = tried importer specifier := by
  rw [tried, List.map_cons, String.append_empty]
  rfl

/-- The first of some paths that is a file. -/
def IsFirst (store : Store) (paths : List String) (c : String) : Prop :=
  ∃ before after, paths = before ++ c :: after ∧ store.has c = true ∧ ∀ d ∈ before, store.has d = false

theorem find?_has_eq_some {paths : List String} : paths.find? store.has = some c ↔ IsFirst store paths c := by
  rw [List.find?_eq_some_iff_append]
  constructor
  · rintro ⟨hc, before, after, rfl, hbefore⟩
    exact ⟨before, after, rfl, hc, fun d hd => by simpa using hbefore d hd⟩
  · rintro ⟨before, after, rfl, hc, hbefore⟩
    exact ⟨hc, before, after, rfl, fun d hd => by simp [hbefore d hd]⟩

/-- What reading a file gives the one that loads a module. -/
def answer (store : Store) (path : String) : Except PluginError (Option String) :=
  match store.read path with
  | .ok text => .ok (some text)
  | .error e => .error ⟨name, .load, e.message, none⟩

theorem load_prefix (store : Store) (path : String) :
    load store (Path.modulePrefix ++ path) = if store.has path then answer store path else .ok none := by
  rw [load, Path.ofModuleId?_prefix]
  rfl

theorem resolve_relative (store : Store) (importer : String) (h : Path.isRelative specifier = true) :
    resolve store specifier (some (Path.modulePrefix ++ importer)) =
      (probe store specifier importer).map fun found => some ⟨Path.toModuleId found, false⟩ := by
  have hhead : specifier.toList.head? = some '.' := by
    rcases Bool.or_eq_true_iff.1 h with hdot | hdot
    · obtain ⟨rest, hrest⟩ := List.isPrefixOf_iff_prefix.1 hdot
      rw [← hrest]
      rfl
    · obtain ⟨rest, hrest⟩ := List.isPrefixOf_iff_prefix.1 hdot
      rw [← hrest]
      rfl
  have hprefix : ∀ start : String, start.toList.head? ≠ some '.' → start ≠ "" → hasPrefix start specifier = false := by
    intro start hstart hne
    rw [Bool.eq_false_iff]
    intro hhas
    obtain ⟨rest, hrest⟩ := List.isPrefixOf_iff_prefix.1 hhas
    rw [← hrest, List.head?_append_of_ne_nil _ (by simpa using hne)] at hhead
    exact hstart hhead
  -- A relative specifier is neither an id nor one for the page.
  have hid : hasPrefix Path.modulePrefix specifier = false := hprefix _ (by decide) (by decide)
  have hexternal : Path.isExternal specifier = false := by
    rw [Path.isExternal, hprefix _ (by decide) (by decide), hprefix _ (by decide) (by decide)]
    rfl
  rw [resolve, hid, if_neg Bool.false_ne_true, hexternal]
  simp only [h, Path.ofModuleId?_prefix, Bool.false_eq_true, if_false, if_true]

theorem probe_of_isFirst (h : IsFirst store (tried importer specifier) c) : probe store specifier importer = .ok c := by
  rw [← candidates_eq_tried] at h
  simp only [probe, find?_has_eq_some.2 h]

theorem isFirst_of_probe (h : probe store specifier importer = .ok c) : IsFirst store (tried importer specifier) c := by
  rw [probe] at h
  split at h
  · next path hpath =>
    obtain rfl := Except.ok.inj h
    exact candidates_eq_tried .. ▸ find?_has_eq_some.1 hpath
  · contradiction

theorem probe_of_none (h : ∀ d ∈ tried importer specifier, store.has d = false) :
    probe store specifier importer = .error (.ofResolution name ⟨specifier, importer, tried importer specifier⟩) := by
  have hnone : (tried importer specifier).find? store.has = none :=
    List.find?_eq_none.2 fun d hd => by simp [h d hd]
  simp only [probe, candidates_eq_tried, hnone]

/-- An importer's relative specifier stands for the first file of those tried, or all of them are named. -/
structure Tries (store : Store) (importer specifier : String) : Prop where
  found : ∀ c, IsFirst store (tried importer specifier) c →
    resolve store specifier (some (Path.modulePrefix ++ importer)) = .ok (some ⟨Path.toModuleId c, false⟩)
  nothing : (∀ d ∈ tried importer specifier, store.has d = false) →
    resolve store specifier (some (Path.modulePrefix ++ importer)) =
      .error (.ofResolution name ⟨specifier, importer, tried importer specifier⟩)

/-- What is loaded for a relative specifier is what reading the file that was found gives. -/
def LoadsFound (store : Store) (importer specifier : String) : Prop :=
  ∀ c id, IsFirst store (tried importer specifier) c →
    resolve store specifier (some (Path.modulePrefix ++ importer)) = .ok (some ⟨id, false⟩) →
      load store id = answer store c

theorem tries (store : Store) (importer : String) (h : Path.isRelative specifier = true) :
    Tries store importer specifier := by
  constructor
  · intro c hc
    rw [resolve_relative store importer h, probe_of_isFirst hc]
    rfl
  · intro hnone
    rw [resolve_relative store importer h, probe_of_none hnone]
    rfl

/-- A store in memory with one file. -/
def oneFile (path text : String) : Store := .memory { files := [(path, text)] }

theorem has_oneFile (path text other : String) : (oneFile path text).has other = (other == path) := by
  change ([(path, text)].lookup other).isSome = (other == path)
  rw [List.lookup_cons]
  cases other == path with
  | true => rfl
  | false => rfl

/-- A relative import stands for the first file of those that are tried for it, which all are named when none is there.
What is found is what is loaded, whatever files there are, exactly when the path that the specifier stands for has no
backslash and does not start at a dot. -/
theorem loads_found_iff (h : Path.isRelative specifier = true) : (∀ store, Tries store importer specifier) ∧
    ((∀ store, LoadsFound store importer specifier) ↔
      '\x5c' ∉ (Path.resolve importer specifier).toList ∧ hasPrefix "./" (Path.resolve importer specifier) = false) := by
  refine ⟨fun store => tries store importer h, ?_, ?_⟩
  · intro hloads
    refine Path.of_normalize_eq_self ?_
    -- The one file there is stands at the path itself, so it is looked for at the normal form of that path.
    have hfirst : IsFirst (oneFile (Path.resolve importer specifier) "") (tried importer specifier)
        (Path.resolve importer specifier) := by
      refine ⟨[], Path.sourceExtensions.map (Path.resolve importer specifier ++ ·), (candidates_eq_tried ..).symm, ?_, ?_⟩
      · rw [has_oneFile, beq_self_eq_true]
      · exact fun d hd => absurd hd List.not_mem_nil
    have hload := hloads _ _ _ hfirst ((tries _ importer h).found _ hfirst)
    by_contra hne
    have hhas : (oneFile (Path.resolve importer specifier) "").has (Path.normalize (Path.resolve importer specifier)) =
        false := by
      rw [has_oneFile, beq_eq_false_iff_ne]
      exact hne
    rw [Path.toModuleId, load_prefix, hhas, if_neg Bool.false_ne_true] at hload
    unfold answer at hload
    split at hload
    · cases hload
    · cases hload
  · rintro ⟨hback, hdot⟩ store c id hfirst hresolve
    obtain rfl : Path.toModuleId c = id := by
      have hfound := (tries store importer h).found c hfirst
      rw [hresolve] at hfound
      simpa using hfound.symm
    obtain ⟨before, after, htried, hhas, -⟩ := hfirst
    have hmem : c ∈ candidates importer specifier := by simp [candidates_eq_tried, htried]
    rw [Path.toModuleId, normalize_candidate hmem hback hdot, load_prefix, if_pos hhas]

theorem loads_found_iff_util : Path.isRelative "./util" = true ∧ (∀ store, Tries store "C/index.js" "./util") ∧
    ∀ store, LoadsFound store "C/index.js" "./util" := by
  have h : Path.isRelative "./util" = true := by decide
  exact ⟨h, (loads_found_iff h).1, (loads_found_iff h).2.2 ⟨by decide, by decide⟩⟩

/-- The id of a file with a backslash in its name is that of another file. -/
theorem not_loadsFound_backslash :
    ¬ LoadsFound (oneFile "C/a\x5cb.js" "export const x = 1;") "C/index.js" "./a\x5cb.js" := by
  intro h
  have hload := h "C/a\x5cb.js" "livedoc://vault/C/a/b.js" (find?_has_eq_some.1 (by decide +kernel)) (by decide +kernel)
  exact absurd hload (by decide +kernel)

end VaultFiles

end Bundle

end LiveNotes
