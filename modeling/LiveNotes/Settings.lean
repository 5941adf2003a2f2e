import LiveNotes.Decimal.Binary64
import LiveNotes.Text.Split
import LiveNotes.Vault.Path

/-! What users can set: the folders of their components, and how files are watched. -/

namespace LiveNotes

open Decimal

def defaultFolder : String := "Components"

def defaultDebounce : Nat := 300

/-- The greatest number of 64 bits. -/
def maxWord : Nat := Nat.pow 2 64 - 1

structure Settings where
  /-- The first folder, as older versions knew it. -/
  folder : String := defaultFolder
  folders : List String := [defaultFolder]
  autoRefresh : Bool := true
  /-- How long changes are gathered, in milliseconds. -/
  debounce : Nat := defaultDebounce
  debugLogging : Bool := false
  deriving DecidableEq, Repr, Inhabited

/-- A folder as a path without white space around it. -/
def normalizeFolder (value : String) : String := Path.normalize (Text.trim value)

/-- Adds a folder that is neither empty nor there already. -/
def addFolder (folders : List String) (value : String) : List String :=
  let folder := normalizeFolder value
  if folder == "" || folders.contains folder then folders else folders ++ [folder]

/-- Folders in the order of their first mention. -/
def normalizeFolders (values : List String) : List String := values.foldl addFolder []

/-- A time in milliseconds: rounded, at least zero and at most the greatest number of 64 bits; what is
no finite number is `fallback`. -/
def normalizeDebounce (value : Binary64) (fallback : Nat) : Nat :=
  match value.roundAway with
  | some n => min n.toNat maxWord
  | none => fallback

namespace Settings

/-- Settings with normal folders, which are those of the list or, if it is empty, the single one;
there is always one. -/
def normalized (s : Settings) : Settings :=
  let found := normalizeFolders (if s.folders.isEmpty then [s.folder] else s.folders)
  let folders := if found.isEmpty then normalizeFolders [defaultFolder] else found
  { s with folder := folders.headD "", folders := folders }

def withFolders (s : Settings) (folders : List String) : Settings :=
  { s with folders := folders }.normalized

end Settings

theorem nodup_addFolder {folders : List String} (h : folders.Nodup) (value : String) :
    (addFolder folders value).Nodup := by
  unfold addFolder
  dsimp only
  split
  · exact h
  · next hc =>
    have hn : normalizeFolder value ∉ folders := by
      intro hm
      exact hc (by simp [hm])
    rw [List.nodup_append]
    refine ⟨h, by simp, fun a ha b hb => ?_⟩
    rw [List.mem_singleton] at hb
    exact fun hab => hn (hb ▸ hab ▸ ha)

theorem nodup_foldl_addFolder (values : List String) {folders : List String}
    (h : folders.Nodup) : (values.foldl addFolder folders).Nodup := by
  induction values generalizing folders with
  | nil => exact h
  | cons v values ih =>
    rw [List.foldl_cons]
    exact ih (nodup_addFolder h v)

theorem nodup_normalizeFolders (values : List String) : (normalizeFolders values).Nodup := by
  rw [normalizeFolders]
  exact @nodup_foldl_addFolder values [] List.nodup_nil

theorem mem_addFolder {folders : List String} {value f : String} :
    f ∈ addFolder folders value ↔ f ∈ folders ∨ f ≠ "" ∧ normalizeFolder value = f := by
  unfold addFolder
  dsimp only
  split
  · next hc =>
    refine ⟨Or.inl, fun h => h.elim id ?_⟩
    rintro ⟨hne, rfl⟩
    simpa [hne] using hc
  · next hc =>
    simp only [Bool.or_eq_true, beq_iff_eq, List.contains_iff_mem, not_or] at hc
    rw [List.mem_append, List.mem_singleton]
    refine or_congr_right ⟨?_, fun h => h.2.symm⟩
    rintro rfl
    exact ⟨hc.1, rfl⟩

theorem mem_foldl_addFolder {values folders : List String} {f : String} :
    f ∈ values.foldl addFolder folders ↔ f ∈ folders ∨ f ≠ "" ∧ f ∈ values.map normalizeFolder := by
  induction values generalizing folders with
  | nil => simp
  | cons v values ih =>
    rw [List.foldl_cons, ih, mem_addFolder, List.map_cons, List.mem_cons, eq_comm (a := f), and_or_left, or_assoc]

theorem mem_normalizeFolders {values : List String} {f : String} :
    f ∈ normalizeFolders values ↔ f ≠ "" ∧ f ∈ values.map normalizeFolder := by
  rw [normalizeFolders, mem_foldl_addFolder]
  simp

theorem foldl_addFolder_eq_append {values folders : List String}
    (h : ∀ v ∈ values, v ≠ "" ∧ normalizeFolder v = v) (hd : (folders ++ values).Nodup) :
    values.foldl addFolder folders = folders ++ values := by
  induction values generalizing folders with
  | nil => simp
  | cons v values ih =>
    obtain ⟨⟨hne, hnormal⟩, hvalues⟩ := List.forall_mem_cons.1 h
    have hnew : v ∉ folders := fun hmem => (List.nodup_append.1 hd).2.2 v hmem v List.mem_cons_self rfl
    have hadd : addFolder folders v = folders ++ [v] := by
      unfold addFolder
      simp [hnormal, hne, hnew]
    rw [List.append_cons] at hd
    rw [List.foldl_cons, hadd, ih hvalues hd, ← List.append_cons]

/-- Normal folders stay as they are. -/
theorem normalizeFolders_eq_self {values : List String} (h : ∀ v ∈ values, v ≠ "" ∧ normalizeFolder v = v)
    (hd : values.Nodup) : normalizeFolders values = values := foldl_addFolder_eq_append h hd

end LiveNotes
