import LiveNotes.Command
import LiveNotes.Proofs.Document.Pass
import LiveNotes.Proofs.Document.Widgets
import LiveNotes.Proofs.Numbered

/-! Positions in a document and the lines that they are on. A position names a byte on its line, or the end of the
text when there is no such line; the scan counts the line feeds in front of that byte and comes to the same line. So
the fragments that are being edited are those that stand on it. -/

namespace LiveNotes.Document

open Text

variable {text before line rest : List Char} {start n offset column : Nat} {f : Fragment}

/-- Line number `n` of a text, counted from zero, with what is in front of it and behind it. -/
structure IsNthLine (text : List Char) (n : Nat) (before line rest : List Char) : Prop where
  whole : text = before ++ line ++ rest
  number : before.count '\n' = n
  begins : Begins before
  single : '\n' ∉ line
  ends : Breaks rest

theorem IsNthLine.next (h : IsNthLine text n before line rest) {front : List Char} (hfront : '\n' ∉ front) :
    IsNthLine (front ++ '\n' :: text) (n + 1) (front ++ '\n' :: before) line rest := by
  refine ⟨?_, ?_, .inr ?_, h.single, h.ends⟩
  · rw [h.whole]
    simp only [List.append_assoc, List.cons_append]
  · rw [List.count_append, List.count_eq_zero.2 hfront, List.count_cons_self, h.number, Nat.zero_add]
  · rcases h.begins with rfl | ⟨more, rfl⟩
    · exact ⟨front, rfl⟩
    · exact ⟨front ++ '\n' :: more, by simp only [List.append_assoc, List.cons_append]⟩

/-- A line that is not the first one has a line in front of it. -/
theorem IsNthLine.exists_front (h : IsNthLine text (n + 1) before line rest) :
    ∃ front more before', text = front ++ '\n' :: more ∧ '\n' ∉ front ∧ before = front ++ '\n' :: before' ∧
      IsNthLine more n before' line rest := by
  obtain ⟨front, behind, hbefore, hfront, hbreaks⟩ := exists_line before
  rcases hbreaks with rfl | ⟨before', rfl⟩
  · have hnone := h.number
    rw [hbefore, List.append_nil, List.count_eq_zero.2 hfront] at hnone
    contradiction
  · have hnumber := h.number
    rw [hbefore, List.count_append, List.count_eq_zero.2 hfront, List.count_cons_self, Nat.zero_add] at hnumber
    refine ⟨front, before' ++ line ++ rest, before', ?_, hfront, hbefore, ?_⟩
    · rw [h.whole, hbefore]
      simp only [List.append_assoc, List.cons_append]
    · refine ⟨rfl, Nat.succ.inj hnumber, ?_, h.single, h.ends⟩
      rcases h.begins with hnil | ⟨last, hlast⟩
      · simp [hbefore] at hnil
      · rcases List.eq_nil_or_concat before' with rfl | ⟨more, c, rfl⟩
        · exact .inl rfl
        · refine .inr ⟨more, ?_⟩
          rw [hbefore, List.concat_eq_append, List.append_cons, ← List.append_assoc] at hlast
          rw [List.concat_eq_append, (List.append_inj' hlast rfl).2]

namespace Position

end Position

/-! ### The line of a byte -/

namespace Position

/-- A position as it is given to the program. -/
def written (p : Position) : String := toString p.line ++ ":" ++ toString p.column

theorem isWhiteSpace_of_isDigit {c : Char} (h : c.isDigit = true) : isWhiteSpace c = false := by
  simp only [Char.isDigit, Bool.and_eq_true, decide_eq_true_eq] at h
  have hlow : 48 ≤ c.toNat := h.1
  have hhigh : c.toNat ≤ 57 := h.2
  simp [isWhiteSpace]
  omega

end Position

/-! ### The fragments that are being edited -/

end LiveNotes.Document
