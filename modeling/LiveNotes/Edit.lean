import LiveNotes.Text.Bytes

/-! Edits of a text by the bytes they replace. Of edits that overlap the one that starts first is
kept; edits beyond the end of the text are dropped. -/

namespace LiveNotes

/-- Puts `text` in the place of the bytes from `start` up to `stop`. -/
structure Edit where
  start : Nat
  stop : Nat
  text : String
  deriving DecidableEq, Repr, Inhabited

namespace Edit

/-- The order of edits: by their start, then by their end. -/
def le (a b : Edit) : Bool := a.start < b.start || (a.start == b.start && a.stop ≤ b.stop)

/-- The edits that do not start before the end of the one kept last, up to which lie `pos` bytes, and
that end within `size` bytes. -/
def keep (size : Nat) : Nat → List Edit → List Edit
  | _, [] => []
  | pos, e :: es =>
    if e.start < pos || size < e.stop then keep size pos es else e :: keep size e.stop es

/-- The text from byte `pos` on, in which edits that follow each other are made. -/
def splice : Nat → List Char → List Edit → List Char
  | _, rest, [] => rest
  | pos, rest, e :: es =>
    let (before, more) := Text.splitAtByte (e.start - pos) rest
    let after := (Text.splitAtByte (e.stop - e.start) more).2
    before ++ e.text.toList ++ splice e.stop after es

/-- The edits of a list that are made in a text of `size` bytes, in their order. -/
def chosen (size : Nat) (edits : List Edit) : List Edit := keep size 0 (edits.mergeSort le)

/-- Makes the edits in a text. -/
def apply (source : String) (edits : List Edit) : String :=
  String.ofList (splice 0 source.toList (chosen source.utf8ByteSize edits))

theorem keep_sublist (size pos : Nat) (es : List Edit) : (keep size pos es).Sublist es := by
  induction es generalizing pos with
  | nil => simp [keep]
  | cons e es ih =>
    rw [keep]
    split
    · exact (ih pos).cons e
    · exact (ih e.stop).cons_cons e

theorem mem_of_mem_chosen {size : Nat} {es : List Edit} {e : Edit} (h : e ∈ chosen size es) :
    e ∈ es := List.mem_mergeSort.1 ((keep_sublist size 0 _).subset h)

@[simp] theorem apply_nil (source : String) : apply source [] = source := by
  simp [apply, chosen, keep, splice]

end Edit

end LiveNotes
