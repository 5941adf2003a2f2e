import LiveNotes.Loader
import LiveNotes.Proofs.Numbered
import LiveNotes.Table
import Mathlib.Data.List.Nodup

/-! Modules on their way from the loader to the host and back. Code is registered under a URL, which is
open until it is imported from. A host runs code when each import from an open URL gives what the code
registered there exports, without regard to the word that makes it new. -/

namespace LiveNotes.Loader

variable {V : Type} {l : Loader V} {start d : Desk} {served : List (String × String)}

/-- A desk after the registration of code and imports from the URLs that it gave; the URLs still open,
with the code behind each. -/
inductive Serving (l : Loader V) (start : Desk) : Desk → List (String × String) → Prop
  | start : Serving l start start []
  | register {d : Desk} {a b : List (String × String)} (code : String) : Serving l start d (a ++ b) →
      Serving l start (l.register d code).2 (a ++ ((l.register d code).1, code) :: b)
  | importUrl {d : Desk} {a b : List (String × String)} {url code : String} :
      Serving l start d (a ++ (url, code) :: b) → Serving l start (l.importUrl d url).2 (a ++ b)

/-- What modules export depends on their code alone. -/
def RunsCode (l : Loader V) (start : Desk) (exports : String → Except Error (Exports V)) : Prop :=
  ∀ d served, Serving l start d served →
    ∀ url code, (url, code) ∈ served → (l.importUrl d url).1 = exports code

/-! ### Hosts with a table of URLs -/

theorem code?_create (t : UrlTable) (code url : String) :
    (t.create code).2.code? url = if url = UrlTable.url t.made then some code else t.code? url :=
  Table.get?_cons (UrlTable.url t.made) url code t.live

theorem code?_revoke (t : UrlTable) (gone url : String) :
    (t.revoke gone).code? url = if url = gone then none else t.code? url :=
  Table.get?_erase t.live gone url

/-- The URLs are those of the table, each of its own number, and lead to the code. -/
structure Kept (l : Loader V) (d : Desk) (served : List (String × String)) : Prop where
  distinct : (served.map Prod.fst).Nodup
  made : ∀ url ∈ served.map Prod.fst, ∃ n < d.urls.made, url = UrlTable.url n
  code : ∀ url code, (url, code) ∈ served → ∃ n, d.urls.code? url = some (l.freshCode n code)

theorem kept_of_serving (hcreate : l.host.createUrl = UrlTable.create)
    (hrevoke : l.host.revokeUrl = UrlTable.revoke) (h : Serving l start d served) :
    Kept l d served := by
  induction h with
  | start => exact ⟨List.nodup_nil, by simp, by simp⟩
  | @register d a b code _ ih =>
    have hurl : (l.register d code).1 = UrlTable.url d.urls.made := by
      rw [register, hcreate]
      rfl
    have hurls : (l.register d code).2.urls = (d.urls.create (l.freshCode d.imports code)).2 := by
      rw [register, hcreate]
    -- The URL has a number that no earlier one has.
    have hnew : ∀ url ∈ (a ++ b).map Prod.fst, url ≠ UrlTable.url d.urls.made := by
      intro url hmem heq
      obtain ⟨n, hn, rfl⟩ := ih.made url hmem
      exact absurd (UrlTable.url_injective heq) (Nat.ne_of_lt hn)
    rw [hurl]
    have hmem : ∀ x, x ∈ a ++ (UrlTable.url d.urls.made, code) :: b →
        x = (UrlTable.url d.urls.made, code) ∨ x ∈ a ++ b := by
      intro x hx
      simpa only [List.mem_append, List.mem_cons, or_left_comm] using hx
    refine ⟨?_, ?_, ?_⟩
    · rw [List.map_append, List.map_cons, List.nodup_middle, List.nodup_cons, ← List.map_append]
      exact ⟨fun hin => hnew _ hin rfl, ih.distinct⟩
    · intro url hin
      obtain ⟨x, hx, rfl⟩ := List.mem_map.1 hin
      rw [hurls]
      rcases hmem x hx with rfl | hx
      · exact ⟨d.urls.made, Nat.lt_succ_self _, rfl⟩
      · obtain ⟨n, hn, heq⟩ := ih.made x.1 (List.mem_map.2 ⟨x, hx, rfl⟩)
        exact ⟨n, Nat.lt_succ_of_lt hn, heq⟩
    · intro url c hin
      rw [hurls]
      rcases hmem (url, c) hin with heq | hx
      · obtain ⟨rfl, rfl⟩ := Prod.mk.inj heq
        exact ⟨d.imports, (code?_create d.urls _ _).trans (if_pos rfl)⟩
      · obtain ⟨n, hn⟩ := ih.code url c hx
        have hne := hnew url (List.mem_map.2 ⟨(url, c), hx, rfl⟩)
        exact ⟨n, (code?_create d.urls _ url).trans ((if_neg hne).trans hn)⟩
  | @importUrl d a b url code _ ih =>
    have hurls : (l.importUrl d url).2.urls = d.urls.revoke url := by
      rw [importUrl, hrevoke]
    have hsub : (a ++ b).Sublist (a ++ (url, code) :: b) :=
      (List.Sublist.refl a).append (List.sublist_cons_self _ b)
    refine ⟨ih.distinct.sublist (hsub.map _), ?_, ?_⟩
    · intro u hin
      rw [hurls]
      exact ih.made u ((hsub.map _).subset hin)
    · intro u c hin
      obtain ⟨n, hn⟩ := ih.code u c (hsub.subset hin)
      have hne : u ≠ url := by
        have hdistinct := ih.distinct
        rw [List.map_append, List.map_cons, List.nodup_middle, List.nodup_cons, ← List.map_append]
          at hdistinct
        rintro rfl
        exact hdistinct.1 (List.mem_map.2 ⟨(u, c), hin, rfl⟩)
      refine ⟨n, ?_⟩
      rw [hurls]
      exact (code?_revoke d.urls url u).trans ((if_neg hne).trans hn)

/-- A host that evaluates what it finds in its table, past the word in front of the code, runs code. -/
theorem runsCode_of_table {read : String → Except Error (Exports V)}
    {exports : String → Except Error (Exports V)} (hcreate : l.host.createUrl = UrlTable.create)
    (hrevoke : l.host.revokeUrl = UrlTable.revoke)
    (hevaluate : ∀ t url code, t.code? url = some code → l.host.evaluate t url = read code)
    (hread : ∀ n code, read (l.freshCode n code) = exports code) : l.RunsCode start exports := by
  intro d served hserving url code hmem
  obtain ⟨n, hn⟩ := (kept_of_serving hcreate hrevoke hserving).code url code hmem
  exact (hevaluate d.urls url _ hn).trans (hread n code)

end LiveNotes.Loader
