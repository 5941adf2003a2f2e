import LiveNotes.Loader.Host
import LiveNotes.Scope.Graph
import Mathlib.Logic.Function.Basic

/-! Names that end in a number tell the numbers apart. -/

namespace LiveNotes

theorem toString_injective : Function.Injective (toString : Nat → String) := by
  intro i j h
  have hdigits : Nat.toDigits 10 i = Nat.toDigits 10 j := by
    have hchars := congrArg String.toList h
    simpa [Nat.toString_eq_repr, Nat.repr] using hchars
  have hvalue := congrArg (fun cs => Nat.ofDigitChars 10 cs 0) hdigits
  simpa only [Nat.ofDigitChars_ten_toDigits] using hvalue

theorem toString_ne_empty (n : Nat) : toString n ≠ "" := by
  rw [Nat.toString_eq_repr]
  exact Nat.repr_ne_empty

theorem isDigit_of_mem_toString {n : Nat} {c : Char} (h : c ∈ (toString n).toList) : c.isDigit = true := by
  have hdigits : (toString n).toList = Nat.toDigits 10 n := by simp [Nat.toString_eq_repr, Nat.repr]
  rw [hdigits] at h
  exact Nat.isDigit_of_mem_toDigits (by decide) (by decide) h

theorem not_mem_toString_slash (n : Nat) : '/' ∉ (toString n).toList :=
  fun hmem => absurd (isDigit_of_mem_toString hmem) (by decide)

theorem append_injective (s : String) : Function.Injective (s ++ ·) := by
  intro a b h
  have hchars := congrArg String.toList h
  simp only [String.toList_append, List.append_cancel_left_eq] at hchars
  exact String.toList_injective hchars

theorem fragmentScopeId_injective (page : String) : Function.Injective (fragmentScopeId page) :=
  (append_injective (page ++ "/")).comp toString_injective

theorem fragmentScopeId_ne (page : String) (i : Nat) : fragmentScopeId page i ≠ page := by
  intro h
  have hlength := congrArg String.length h
  rw [fragmentScopeId, String.length_append, String.length_append] at hlength
  have hslash : "/".length = 1 := rfl
  omega

theorem UrlTable.url_injective : Function.Injective UrlTable.url :=
  (append_injective "blob:livedoc/").comp toString_injective

end LiveNotes
