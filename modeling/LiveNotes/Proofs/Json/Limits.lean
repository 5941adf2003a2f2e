import LiveNotes.Json.Bounded
import Mathlib.Data.List.Forall2

/-! What stands inside of a value, and how deep. All that stands inside of a bounded value is within the
limits for texts, for entries and for depth. It has the first entries of each array and object in their
order, the texts up to their limit with a note on how much is missing, and a mark in place of each value
that has too many others around it; nothing else of the value differs, and one within the limits is kept
as it is. -/

namespace LiveNotes.Text

/-- A text of at most `max` characters, or one of just as many with a note on how many others there were. -/
def IsTruncated (max : Nat) (s : String) : Prop :=
  s.toList.length ≤ max ∨ ∃ kept : List Char, kept.length = max ∧
    ∃ n : Nat, s = String.ofList kept ++ ("\u2026 [truncated " ++ toString n ++ " chars]")

theorem isTruncated_truncate (s : String) (max : Nat) : IsTruncated max (truncate s max) := by
  unfold truncate cut
  dsimp only
  split
  · next h => exact .inl h
  · next h =>
    refine .inr ⟨s.toList.take max, ?_, _, rfl⟩
    exact List.length_take_of_le (Nat.le_of_not_le h)

/-- A text that was cut goes on with the mark of that. -/
theorem IsTruncated.getElem? {max : Nat} {s : String} (h : IsTruncated max s) (hlong : max < s.toList.length) :
    s.toList[max]? = some '\u2026' := by
  rcases h with hshort | ⟨kept, hkept, n, rfl⟩
  · exact absurd hlong (Nat.not_lt_of_le hshort)
  · rw [String.toList_append, String.toList_ofList, List.getElem?_append_right (Nat.le_of_eq hkept), hkept, Nat.sub_self,
      String.toList_append, String.toList_append]
    rfl

/-- A text is kept, or cut to its first `max` characters with the number of the others behind it. -/
inductive IsCutTo (max : Nat) (s : String) : String → Prop
  | kept (h : s.toList.length ≤ max) : IsCutTo max s s
  | cut (h : max < s.toList.length) : IsCutTo max s
      (String.ofList (s.toList.take max) ++
        ("\u2026 [truncated " ++ toString (s.toList.length - max) ++ " chars]"))

theorem isCutTo_iff {max : Nat} {s t : String} : IsCutTo max s t ↔ t = truncate s max := by
  constructor
  · rintro (h | h)
    · exact (cut_eq_self h).symm
    · exact (if_neg (Nat.not_le.2 h)).symm
  · rintro rfl
    by_cases h : s.toList.length ≤ max
    · rw [truncate, cut_eq_self h]
      exact .kept h
    · rw [truncate, cut, if_neg h]
      exact .cut (Nat.not_le.1 h)

end LiveNotes.Text

namespace LiveNotes.Json

variable {v w p : Json} {q : Json → Prop} {max n : Nat}

/-- The values that stand in a value, next to it. -/
def children : Json → List Json
  | .array items => items
  | .object fields => fields.map (·.2)
  | _ => []

def isContainer : Json → Bool
  | .array _ | .object _ => true
  | _ => false

/-- A value stands somewhere inside of another one, or is that one. -/
inductive PartOf (p : Json) : Json → Prop
  | self : PartOf p p
  | child {c v : Json} : c ∈ v.children → PartOf p c → PartOf p v

/-- All values in a value have a property. -/
def All (q : Json → Prop) (v : Json) : Prop := ∀ p, PartOf p v → q p

/-- All texts in a value are cut to `max` characters. -/
def TextsWithin (max : Nat) : Json → Prop := All fun p => ∀ s, p = .text s → Text.IsTruncated max s

/-- All arrays and objects in a value have at most `max` entries. -/
def EntriesWithin (max : Nat) : Json → Prop := All fun p => p.children.length ≤ max

/-- At most `n` arrays and objects stand inside of each other. -/
def NestsWithin : (n : Nat) → Json → Prop
  | 0, v => v.isContainer = false
  | n + 1, v => ∀ c ∈ v.children, c.NestsWithin n

theorem children_eq_nil (h : v.isContainer = false) : v.children = [] := by
  cases v with
  | array items => contradiction
  | object fields => contradiction
  | _ => rfl

theorem all_iff : All q v ↔ q v ∧ ∀ c ∈ v.children, All q c := by
  constructor
  · exact fun h => ⟨h v .self, fun c hc p hp => h p (.child hc hp)⟩
  · rintro ⟨hself, hchild⟩ p hp
    cases hp with
    | self => exact hself
    | child hc hp => exact hchild _ hc p hp

theorem all_of_scalar (hv : v.isContainer = false) (h : q v) : All q v := by
  rw [all_iff, children_eq_nil hv]
  exact ⟨h, by simp⟩

@[simp] theorem textsWithin_text {s : String} : TextsWithin max (.text s) ↔ Text.IsTruncated max s := by
  unfold TextsWithin
  rw [all_iff]
  simp [children]

@[simp] theorem textsWithin_bool (b : Bool) : TextsWithin max (.bool b) := all_of_scalar rfl (by simp)

@[simp] theorem textsWithin_null : TextsWithin max .null := all_of_scalar rfl (by simp)

@[simp] theorem textsWithin_array {items : List Json} :
    TextsWithin max (.array items) ↔ ∀ v ∈ items, TextsWithin max v := by
  unfold TextsWithin
  rw [all_iff, children]
  exact ⟨And.right, fun h => ⟨fun s hs => (nomatch hs), h⟩⟩

@[simp] theorem textsWithin_object {fields : List (String × Json)} :
    TextsWithin max (.object fields) ↔ ∀ f ∈ fields, TextsWithin max f.2 := by
  unfold TextsWithin
  rw [all_iff, children, List.forall_mem_map]
  exact ⟨And.right, fun h => ⟨fun s hs => (nomatch hs), h⟩⟩

@[simp] theorem textsWithin_optionalText {s : Option String} :
    TextsWithin max (.optionalText s) ↔ ∀ t, s = some t → Text.IsTruncated max t := by
  cases s with
  | none => simp [optionalText]
  | some t => simp [optionalText]

theorem entriesWithin_of_scalar (h : v.isContainer = false) : EntriesWithin max v :=
  all_of_scalar h (by rw [children_eq_nil h]; exact Nat.zero_le max)

theorem entriesWithin_optionalText (s : Option String) : EntriesWithin max (.optionalText s) := by
  cases s with
  | none => exact entriesWithin_of_scalar rfl
  | some t => exact entriesWithin_of_scalar rfl

/-! ### Cut values -/

/-- What a value is cut to inside of another one with that much room. -/
def cutBelow : (room : Nat) → Json → Json
  | 0, _ => depthMarker
  | room + 1, v => cutTo room v

theorem cutItems_cons (room count : Nat) (v : Json) (items : List Json) :
    cutItems room (count + 1) (v :: items) = cutBelow room v :: cutItems room count items := by
  cases room with
  | zero => simp [cutItems, cutBelow]
  | succ room => simp [cutItems, cutBelow]

theorem cutFields_cons (room count : Nat) (name : String) (v : Json) (fields : List (String × Json)) :
    cutFields room (count + 1) ((name, v) :: fields) =
      (name, cutBelow room v) :: cutFields room count fields := by
  cases room with
  | zero => simp [cutFields, cutBelow]
  | succ room => simp [cutFields, cutBelow]

theorem cutItems_eq (room count : Nat) (items : List Json) :
    cutItems room count items = (items.take count).map (cutBelow room) := by
  induction items generalizing count with
  | nil => simp [cutItems]
  | cons v items ih =>
    cases count with
    | zero => simp [cutItems]
    | succ count => rw [cutItems_cons, ih, List.take_succ_cons, List.map_cons]

theorem cutFields_eq (room count : Nat) (fields : List (String × Json)) :
    cutFields room count fields = (fields.take count).map fun f => (f.1, cutBelow room f.2) := by
  induction fields generalizing count with
  | nil => simp [cutFields]
  | cons f fields ih =>
    cases count with
    | zero => simp [cutFields]
    | succ count => rw [cutFields_cons, ih, List.take_succ_cons, List.map_cons]

/-- What stands in a cut value are its first entries, cut in turn. -/
theorem children_cutTo (room : Nat) (v : Json) :
    (cutTo room v).children = (v.children.take maxEntries).map (cutBelow room) := by
  cases v with
  | array items =>
    rw [cutTo]
    exact cutItems_eq room maxEntries items
  | object fields =>
    rw [cutTo, children, children, cutFields_eq, List.map_map, ← List.map_take, List.map_map]
    rfl
  | _ => simp [cutTo, children]

/-- What cut values and the marker have by themselves, all values in a cut value have. -/
theorem all_cutTo (hcut : ∀ room v, q (cutTo room v)) (hmarker : q depthMarker) (room : Nat) (v : Json) :
    All q (cutTo room v) := by
  induction room generalizing v with
  | zero =>
    rw [all_iff, children_cutTo]
    refine ⟨hcut 0 v, fun c hc => ?_⟩
    obtain ⟨w, -, rfl⟩ := List.mem_map.1 hc
    exact all_of_scalar rfl hmarker
  | succ room ih =>
    rw [all_iff, children_cutTo]
    refine ⟨hcut (room + 1) v, fun c hc => ?_⟩
    obtain ⟨w, -, rfl⟩ := List.mem_map.1 hc
    exact ih w

@[simp] theorem textsWithin_bounded (v : Json) : TextsWithin maxTextLength v.bounded := by
  refine all_cutTo (fun room v s hs => ?_) (fun s hs => ?_) maxDepth v
  · cases v with
    | text t =>
      rw [cutTo] at hs
      exact Json.text.inj hs ▸ Text.isTruncated_truncate t _
    | _ => simp [cutTo] at hs
  · exact Json.text.inj hs ▸ .inl (by decide)

theorem entriesWithin_bounded (v : Json) : EntriesWithin maxEntries v.bounded := by
  refine all_cutTo (fun room v => ?_) (Nat.zero_le _) maxDepth v
  rw [children_cutTo, List.length_map]
  exact List.length_take_le _ _

theorem nestsWithin_cutTo (room : Nat) (v : Json) : (cutTo room v).NestsWithin (room + 1) := by
  induction room generalizing v with
  | zero =>
    intro c hc
    rw [children_cutTo] at hc
    obtain ⟨w, -, rfl⟩ := List.mem_map.1 hc
    rfl
  | succ room ih =>
    intro c hc
    rw [children_cutTo] at hc
    obtain ⟨w, -, rfl⟩ := List.mem_map.1 hc
    exact ih w

theorem nestsWithin_bounded (v : Json) : v.bounded.NestsWithin (maxDepth + 1) :=
  nestsWithin_cutTo maxDepth v

/-! ### What is kept of a value -/

/-- The second value is what is kept of the first one when `levels` levels of values may be: its texts are
cut to 2000 characters, of its entries the first 200 are kept, and below the last level stands the mark. -/
def IsCut : (levels : Nat) → Json → Json → Prop
  | 0, _, w => w = .text "[MaxDepth]"
  | _ + 1, .text s, w => ∃ t, w = .text t ∧ Text.IsCutTo 2000 s t
  | n + 1, .array items, w => ∃ kept, w = .array kept ∧ List.Forall₂ (IsCut n) (items.take 200) kept
  | n + 1, .object fields, w => ∃ kept, w = .object kept ∧
      List.Forall₂ (fun f g => f.1 = g.1 ∧ IsCut n f.2 g.2) (fields.take 200) kept
  | _ + 1, v, w => w = v

/-- The values in a value stand on at most `n` levels: it is the first one, what stands next to it in it the
second one, and so on. -/
def LevelsWithin : (n : Nat) → Json → Prop
  | 0, _ => False
  | n + 1, v => ∀ c ∈ v.children, c.LevelsWithin n

/-- All texts in a value have at most `max` characters. -/
def ShortTexts (max : Nat) : Json → Prop := All fun p => ∀ s, p = .text s → s.toList.length ≤ max

theorem all_array {items : List Json} :
    All q (.array items) ↔ q (.array items) ∧ ∀ c ∈ items, All q c := all_iff

theorem all_object {fields : List (String × Json)} :
    All q (.object fields) ↔ q (.object fields) ∧ ∀ f ∈ fields, All q f.2 := by
  rw [all_iff, children, List.forall_mem_map]

theorem all_scalar (h : v.children = []) : All q v ↔ q v := by
  simp [all_iff (v := v), h]

theorem forall₂_iff_eq_map {α β : Type} {R : α → β → Prop} {f : α → β} {as : List α} {bs : List β}
    (h : ∀ a b, R a b ↔ b = f a) : List.Forall₂ R as bs ↔ bs = as.map f := by
  induction as generalizing bs with
  | nil => simp
  | cons a as ih => simp [List.forall₂_cons_left_iff, h, ih]

/-- There is one value that is kept of a value: the one that it is cut to. -/
theorem isCut_iff : IsCut n v w ↔ w = cutBelow n v := by
  induction n generalizing v w with
  | zero => rfl
  | succ n ih =>
    rw [cutBelow]
    cases v with
    | text s => simp only [IsCut, cutTo, maxTextLength, Text.isCutTo_iff, exists_eq_right]
    | array items =>
      have hitems := @forall₂_iff_eq_map _ _ (IsCut n) (cutBelow n) (items.take 200)
      simp only [IsCut, cutTo, cutItems_eq, maxEntries, hitems fun _ _ => ih, exists_eq_right]
    | object fields =>
      have hfield (f g : String × Json) :
          f.1 = g.1 ∧ IsCut n f.2 g.2 ↔ g = (f.1, cutBelow n f.2) := by
        rw [ih, Prod.ext_iff, eq_comm]
      simp only [IsCut, cutTo, cutFields_eq, maxEntries, forall₂_iff_eq_map hfield,
        exists_eq_right]
    | _ => rfl

/-- Nothing of a value within the limits is cut. -/
theorem cutBelow_eq_self (ht : ShortTexts maxTextLength v) (he : EntriesWithin maxEntries v)
    (hl : LevelsWithin n v) : cutBelow n v = v := by
  induction n generalizing v with
  | zero => exact hl.elim
  | succ n ih =>
    obtain ⟨htext, htexts⟩ := all_iff.1 ht
    obtain ⟨hcount, hcounts⟩ := all_iff.1 he
    have hchild : ∀ c ∈ v.children, cutBelow n c = c :=
      fun c hc => ih (htexts c hc) (hcounts c hc) (hl c hc)
    rw [cutBelow]
    cases v with
    | text s => rw [cutTo, Text.truncate, Text.cut_eq_self (htext s rfl)]
    | array items =>
      rw [children] at hcount hchild
      rw [cutTo, cutItems_eq, List.take_of_length_le hcount,
        List.map_congr_left (g := id) hchild, List.map_id]
    | object fields =>
      rw [children, List.length_map] at hcount
      rw [children, List.forall_mem_map] at hchild
      rw [cutTo, cutFields_eq, List.take_of_length_le hcount,
        List.map_congr_left (g := id) fun f hf => by rw [hchild f hf, id], List.map_id]
    | _ => rfl

/-- Of each value one value is kept, the bounded one. It is the value itself when the texts have at most
2000 characters, the arrays and objects at most 200 entries and the values stand on at most six levels. A
bounded value is within these limits, but for the notes behind texts that were cut and the marks inside of
the arrays and objects of the sixth level. -/
theorem bounded_keeps (v : Json) :
    (∀ w, IsCut 6 v w ↔ w = v.bounded) ∧
      (ShortTexts 2000 v → EntriesWithin 200 v → LevelsWithin 6 v → v.bounded = v) ∧
      TextsWithin 2000 v.bounded ∧ EntriesWithin 200 v.bounded ∧ NestsWithin 6 v.bounded :=
  ⟨fun _ => isCut_iff, cutBelow_eq_self, textsWithin_bounded v, entriesWithin_bounded v,
    nestsWithin_bounded v⟩

/-- Six arrays in each other are kept when the last one is empty; what else is in that one is replaced. -/
theorem bounded_keeps_nested :
    (array [array [array [array [array [array []]]]], text "a", object [("b", int 1)]]).bounded =
        array [array [array [array [array [array []]]]], text "a", object [("b", int 1)]] ∧
      (array [array [array [array [array [array [null]]]]]]).bounded =
        array [array [array [array [array [array [text "[MaxDepth]"]]]]]] := by
  refine ⟨(bounded_keeps _).2.1 ?_ ?_ ?_, ((bounded_keeps _).1 _).1 ?_ |>.symm⟩
  · simp [ShortTexts, all_array, all_object, all_scalar (v := text _) rfl,
      all_scalar (v := int _) rfl]
  · simp [EntriesWithin, all_array, all_object, all_scalar (v := text _) rfl,
      all_scalar (v := int _) rfl, children]
  · simp [LevelsWithin, children]
  · simp [IsCut]

end LiveNotes.Json
