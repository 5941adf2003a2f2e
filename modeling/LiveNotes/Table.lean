/-! Tables from names to values, as lists in the order of the names, each name once. -/

namespace LiveNotes

abbrev Table (α : Type) := List (String × α)

namespace Table

/-- Gives a name a value; the value it had before is forgotten. -/
def insert {α : Type} (name : String) (value : α) : Table α → Table α
  | [] => [(name, value)]
  | (n, v) :: t =>
    if n < name then (n, v) :: insert name value t
    else if n = name then (name, value) :: t
    else (name, value) :: (n, v) :: t

/-- The table of some pairs; of two with one name the last one counts. -/
def ofList {α : Type} (pairs : List (String × α)) : Table α :=
  pairs.foldl (fun t (n, v) => insert n v t) []

def erase {α : Type} (name : String) (t : Table α) : Table α := t.filter (·.1 != name)

def get? {α : Type} (t : Table α) (name : String) : Option α := t.lookup name

def names {α : Type} (t : Table α) : List String := t.map (·.1)

def has {α : Type} (t : Table α) (name : String) : Bool := (t.get? name).isSome

/-- A table with the pairs of another one added. -/
def extend {α : Type} (t : Table α) (more : List (String × α)) : Table α :=
  more.foldl (fun t (n, v) => insert n v t) t

theorem mem_names_insert {α : Type} {name n : String} {value : α} {t : Table α} :
    n ∈ names (insert name value t) ↔ n = name ∨ n ∈ names t := by
  induction t with
  | nil => simp [insert, names]
  | cons p t ih => grind [insert, names]

theorem get?_insert {α : Type} (name n : String) (value : α) (t : Table α) :
    get? (insert name value t) n = if n = name then some value else get? t n := by
  unfold get?
  induction t with
  | nil => grind [insert]
  | cons p t ih => grind [insert]

variable {α β : Type}

theorem get?_cons (n name : String) (v : α) (t : Table α) :
    get? ((n, v) :: t) name = if name = n then some v else get? t name := by
  unfold get?
  rw [List.lookup_cons]
  by_cases h : name = n
  · simp [h]
  · simp [h, beq_false_of_ne h]

theorem get?_map (f : String → α → β) (t : Table α) (name : String) :
    get? (t.map fun p => (p.1, f p.1 p.2)) name = (get? t name).map (f name) := by
  induction t with
  | nil => rfl
  | cons p t ih =>
    obtain ⟨n, v⟩ := p
    rw [List.map_cons, get?_cons, get?_cons, ih]
    by_cases h : name = n
    · subst h
      simp
    · simp [h]

theorem get?_erase (t : Table α) (n name : String) :
    get? (t.erase n) name = if name = n then none else get? t name := by
  unfold erase
  induction t with
  | nil => simp [get?]
  | cons p t ih =>
    obtain ⟨m, v⟩ := p
    rw [List.filter_cons]
    by_cases hm : m = n
    · subst hm
      rw [if_neg (by simp), ih, get?_cons]
      by_cases h : name = m
      · simp [h]
      · simp [h]
    · rw [if_pos (by simpa using hm), get?_cons, get?_cons, ih]
      by_cases h : name = m
      · subst h
        simp [hm]
      · simp [h]

/-- Pairs that are added to a table count more than those in it. -/
theorem get?_extend (t : Table α) (more : List (String × α)) (name : String) :
    get? (t.extend more) name = (get? (ofList more) name).or (get? t name) := by
  induction more generalizing t with
  | nil => rfl
  | cons p more ih =>
    obtain ⟨n, v⟩ := p
    have hcons : ofList ((n, v) :: more) = extend (insert n v []) more := rfl
    change get? (extend (insert n v t) more) name = _
    rw [hcons, ih, ih (insert n v []), Option.or_assoc, get?_insert, get?_insert]
    split
    · rfl
    · rfl

/-! ### Order -/

variable {t : Table α} {name : String} {v : α}

/-- The names of a table stand in their order, each once. -/
def InOrder (t : Table α) : Prop := t.names.Pairwise (· < ·)

instance (t : Table α) : Decidable t.InOrder :=
  inferInstanceAs (Decidable (List.Pairwise _ _))

theorem InOrder.insert (h : t.InOrder) (name : String) (v : α) : (insert name v t).InOrder := by
  induction t with
  | nil => exact List.pairwise_singleton _ _
  | cons p t ih =>
    obtain ⟨n, u⟩ := p
    obtain ⟨hlt, ht⟩ := List.pairwise_cons.1 h
    rw [Table.insert]
    split
    · next hless =>
      refine List.pairwise_cons.2 ⟨fun m hm => ?_, ih ht⟩
      rcases mem_names_insert.1 hm with rfl | hm
      · exact hless
      · exact hlt m hm
    · next hless =>
      split
      · next hsame =>
        subst hsame
        exact h
      · next hsame =>
        have hmore : name < n := Decidable.byContradiction fun hle =>
          hsame (String.le_antisymm (String.not_lt.1 hle) (String.not_lt.1 hless))
        refine List.pairwise_cons.2 ⟨fun m hm => ?_, h⟩
        rcases List.mem_cons.1 hm with rfl | hm
        · exact hmore
        · exact String.lt_trans hmore (hlt m hm)

theorem InOrder.extend (h : t.InOrder) (more : List (String × α)) : (t.extend more).InOrder := by
  induction more generalizing t with
  | nil => exact h
  | cons p more ih => exact ih (h.insert p.1 p.2)

theorem inOrder_ofList (pairs : List (String × α)) : (ofList pairs).InOrder :=
  InOrder.extend (t := []) List.Pairwise.nil pairs

theorem insert_of_forall_lt (h : ∀ n ∈ t.names, n < name) : insert name v t = t ++ [(name, v)] := by
  induction t with
  | nil => rfl
  | cons p t ih =>
    obtain ⟨n, u⟩ := p
    rw [names, List.map_cons, List.forall_mem_cons] at h
    rw [Table.insert, if_pos h.1, ih h.2]
    rfl

/-- A table that goes on in order where another one ends is added as it is. -/
theorem extend_of_inOrder {more : Table α} (h : InOrder (t ++ more)) : t.extend more = t ++ more := by
  induction more generalizing t with
  | nil => exact (List.append_nil t).symm
  | cons p more ih =>
    obtain ⟨n, u⟩ := p
    have hlast : ∀ m ∈ t.names, m < n := by
      rw [InOrder, names, List.map_append, List.pairwise_append] at h
      exact fun m hm => h.2.2 m hm n List.mem_cons_self
    have hcons : t.extend ((n, u) :: more) = (Table.insert n u t).extend more := rfl
    rw [hcons, insert_of_forall_lt hlast, ih (by simpa using h), List.append_assoc]
    rfl

end Table

end LiveNotes
