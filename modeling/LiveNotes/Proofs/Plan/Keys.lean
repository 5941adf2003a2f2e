import LiveNotes.Proofs.Plan.Freshness
import Mathlib.Data.List.Nodup

/-! How the keys of a document stay apart. A pass keeps a key only for the index that had it, and gives
the keys it draws to the other fragments in their order. As numbers of the source, the keys that are
kept are below those that are drawn, so that a source without repetitions is enough for a key to stand
for one fragment alone, however the document grows and shrinks. -/

namespace LiveNotes.Plan

variable {newKey : KeySource} {drawn : Nat} {d : Demand} {before : List CacheEntry}
  {fs : List Fragment}

theorem key_of_kept {f : Fragment} {e : Option CacheEntry} {key : String}
    (h : (decide d e f).1 = some key) : e.map (·.key) = some key := by
  unfold decide at h
  grind

/-- The entry of a fragment has the key that is decided on. -/
theorem walk_same_key (newKey : KeySource) (drawn : Nat) (d : Demand) (before : List CacheEntry)
    (fs : List Fragment) :
    (walk newKey drawn d before fs).1.map (·.1.key) =
      (walk newKey drawn d before fs).1.map (·.2.key) := by
  induction fs generalizing drawn d before with
  | nil => rfl
  | cons f fs ih => simp only [walk, List.map_cons, ih]

/-- The keys that are new are those that the source gives, in its order. -/
theorem walk_fresh (newKey : KeySource) (drawn : Nat) (d : Demand) (before : List CacheEntry)
    (fs : List Fragment) :
    ((walk newKey drawn d before fs).1.filter (·.2.fresh)).map (·.2.key) =
      (List.range' drawn ((walk newKey drawn d before fs).2 - drawn)).map newKey := by
  induction fs generalizing drawn d before with
  | nil => simp [walk]
  | cons f fs ih =>
    cases hkept : (decide d before.head? f).1 with
    | some key => simpa [walk, hkept] using ih drawn _ _
    | none =>
      have hlast := le_walk newKey (drawn + 1) (decide d before.head? f).2 before.tail fs
      obtain ⟨k, hk⟩ := Nat.exists_eq_add_of_le hlast
      have hrange : (walk newKey (drawn + 1) (decide d before.head? f).2 before.tail fs).2 - drawn =
          ((walk newKey (drawn + 1) (decide d before.head? f).2 before.tail fs).2 - (drawn + 1)) +
            1 := by
        omega
      simp [walk, hkept, ih, hrange, List.range'_succ]

/-- If the keys of the entries were drawn under different numbers, so were those decided on: each
keeps its number or has one that was not yet drawn. -/
theorem exists_numbers_walk (drawn : Nat) (d : Demand) (fs : List Fragment) {ns : List Nat}
    (hkeys : before.map (·.key) = ns.map newKey) (hns : ns.Nodup) (hlt : ∀ n ∈ ns, n < drawn) :
    ∃ ms : List Nat, (walk newKey drawn d before fs).1.map (·.2.key) = ms.map newKey ∧ ms.Nodup ∧
      ∀ m ∈ ms, m < (walk newKey drawn d before fs).2 ∧ (m ∈ ns ∨ drawn ≤ m) := by
  induction fs generalizing drawn d before ns with
  | nil => exact ⟨[], rfl, List.nodup_nil, by simp⟩
  | cons f fs ih =>
    have hkeys' : before.tail.map (·.key) = ns.tail.map newKey := by
      rw [List.map_tail, hkeys, List.map_tail]
    have hns' : ns.tail.Nodup := hns.sublist (List.tail_sublist ns)
    have hmem : ∀ n ∈ ns.tail, n ∈ ns := fun n hn => List.mem_of_mem_tail hn
    cases hkept : (decide d before.head? f).1 with
    | none =>
      obtain ⟨ms, hms, hnd, hm⟩ := ih (drawn + 1) (decide d before.head? f).2 hkeys'
        hns' fun n hn => Nat.lt_succ_of_lt (hlt n (hmem n hn))
      refine ⟨drawn :: ms, ?_, List.nodup_cons.2 ⟨fun hin => ?_, hnd⟩, fun m hin => ?_⟩
      · simp [walk, hkept, hms]
      · rcases (hm _ hin).2 with hn | hn
        · exact Nat.lt_irrefl _ (hlt _ (hmem _ hn))
        · omega
      · have hlast := le_walk newKey (drawn + 1) (decide d before.head? f).2 before.tail fs
        simp only [walk, hkept, Option.isNone_none, if_true]
        rcases List.mem_cons.1 hin with rfl | hin
        · exact ⟨hlast, Or.inr le_rfl⟩
        · exact ⟨(hm m hin).1, (hm m hin).2.imp (hmem m) Nat.le_of_succ_le⟩
    | some key =>
      -- The key is that of the first entry, whose number is the first one.
      obtain ⟨e, he, hek⟩ := Option.map_eq_some_iff.1 (key_of_kept hkept)
      obtain ⟨n, hn, hnk⟩ : ∃ n, ns.head? = some n ∧ newKey n = key := by
        have hhead := congrArg List.head? hkeys
        simp only [List.head?_map, he, Option.map_some] at hhead
        obtain ⟨n, hn, hnk⟩ := Option.map_eq_some_iff.1 hhead.symm
        exact ⟨n, hn, hnk.trans hek⟩
      obtain ⟨ns, rfl⟩ : ∃ ns', ns = n :: ns' := by
        cases ns with
        | nil => simp at hn
        | cons m ns => exact ⟨ns, by simpa using hn⟩
      obtain ⟨ms, hms, hnd, hm⟩ := ih drawn (decide d before.head? f).2 hkeys' hns'
        fun n hn => hlt n (hmem n hn)
      refine ⟨n :: ms, ?_, List.nodup_cons.2 ⟨fun hin => ?_, hnd⟩, fun m hin => ?_⟩
      · simp [walk, hkept, hms, hnk]
      · rcases (hm _ hin).2 with hn | hn
        · exact (List.nodup_cons.1 hns).1 hn
        · exact Nat.lt_irrefl _ (hn.trans_lt (hlt n (List.mem_cons_self)))
      · have hlast := le_walk newKey drawn (decide d before.head? f).2 before.tail fs
        simp only [walk, hkept, Option.isNone_some]
        rcases List.mem_cons.1 hin with rfl | hin
        · exact ⟨(hlt m List.mem_cons_self).trans_le hlast, Or.inl List.mem_cons_self⟩
        · exact ⟨(hm m hin).1, (hm m hin).2.imp (hmem m) id⟩

namespace Passes

variable {past : Passes} {i n : Nat} {e : KeyDecision}

/-- The keys that the last pass decides on, by index. -/
def keys (newKey : KeySource) (h : Passes) : List String := (h.plan newKey).decisions.map (·.key)

theorem keys_cons (newKey : KeySource) (fs : List Fragment) (past : Passes) :
    keys newKey (fs :: past) =
      (walk newKey (plan newKey past).drawn {} (plan newKey past).cache fs).1.map (·.2.key) := by
  rw [keys, plan, planPass, List.map_map]
  rfl

theorem cache_keys (newKey : KeySource) (h : Passes) :
    (h.plan newKey).cache.map (·.key) = keys newKey h := by
  cases h with
  | nil => rfl
  | cons fs past =>
    rw [keys_cons, ← walk_same_key, plan, planPass, List.map_map]
    rfl

theorem getElem?_keys {h : Passes} (he : (h.plan newKey).decisions[i]? = some e) :
    (keys newKey h)[i]? = some e.key := by
  rw [keys, List.getElem?_map, he, Option.map_some]

/-- The numbers under which the keys of the last pass were drawn. -/
theorem exists_numbers (newKey : KeySource) (h : Passes) :
    ∃ ns : List Nat, keys newKey h = ns.map newKey ∧ ns.Nodup ∧
      ∀ n ∈ ns, n < (h.plan newKey).drawn := by
  induction h with
  | nil => exact ⟨[], rfl, List.nodup_nil, by simp⟩
  | cons fs past ih =>
    obtain ⟨ns, hkeys, hns, hlt⟩ := ih
    rw [← cache_keys] at hkeys
    obtain ⟨ms, hms, hnd, hm⟩ := exists_numbers_walk _ {} fs hkeys hns hlt
    exact ⟨ms, (keys_cons newKey fs past).trans hms, hnd, fun m hin => (hm m hin).1⟩

theorem fresh_keys (newKey : KeySource) (fs : List Fragment) (past : Passes) :
    ((plan newKey (fs :: past)).decisions.filter (·.fresh)).map (·.key) =
      (List.range' (plan newKey past).drawn
        ((plan newKey (fs :: past)).drawn - (plan newKey past).drawn)).map newKey := by
  rw [plan, planPass, List.filter_map, List.map_map]
  exact walk_fresh newKey _ {} _ fs

theorem nodup_keys (hk : Function.Injective newKey) (h : Passes) : (keys newKey h).Nodup := by
  obtain ⟨ns, hkeys, hns, -⟩ := exists_numbers newKey h
  rw [hkeys]
  exact hns.map hk

/-- What is yet to be drawn is the key of no fragment. -/
theorem notMem_keys (hk : Function.Injective newKey) {h : Passes}
    (hn : (h.plan newKey).drawn ≤ n) : newKey n ∉ keys newKey h := by
  obtain ⟨ns, hkeys, -, hlt⟩ := exists_numbers newKey h
  rw [hkeys, List.mem_map_of_injective hk]
  exact fun hin => absurd (hlt n hin) (not_lt.2 hn)

theorem length_decisions (newKey : KeySource) (fs : List Fragment) (past : Passes) :
    (plan newKey (fs :: past)).decisions.length = fs.length := by
  simp [plan, planPass, length_walk]

/-- A fragment that is not given a fresh key has the one that its index had in the pass before. -/
theorem getElem?_keys_of_kept {fs : List Fragment}
    (he : (plan newKey (fs :: past)).decisions[i]? = some e) (hf : e.fresh = false) :
    (keys newKey past)[i]? = some e.key := by
  have hi : i < fs.length := by
    rw [← length_decisions newKey fs past]
    exact (List.getElem?_eq_some_iff.1 he).1
  obtain ⟨e', he', -, hfresh, -, hkept⟩ := decision_plan newKey past hi
  obtain rfl : e = e' := Option.some.inj (he.symm.trans he')
  have hr : ¬ Renewed (now past) fs i := by
    rw [← hfresh, hf]
    exact Bool.false_ne_true
  rw [← cache_keys, List.getElem?_map]
  exact hkept hr

/-- What the last pass draws becomes the key of one fragment, for which it is fresh. -/
theorem exists_decision_of_drawn (hk : Function.Injective newKey) {fs : List Fragment}
    (hn : (plan newKey past).drawn ≤ n) (hn' : n < (plan newKey (fs :: past)).drawn) :
    ∃ (i : Nat) (e : KeyDecision), (plan newKey (fs :: past)).decisions[i]? = some e ∧
      e.fresh = true ∧ e.key = newKey n ∧
      ∀ j, (keys newKey (fs :: past))[j]? = some (newKey n) → j = i := by
  have hin : newKey n ∈ ((plan newKey (fs :: past)).decisions.filter (·.fresh)).map (·.key) := by
    rw [fresh_keys]
    exact List.mem_map_of_mem (List.mem_range'_1.2 (by omega))
  obtain ⟨e, he, hek⟩ := List.mem_map.1 hin
  obtain ⟨he, hf⟩ := List.mem_filter.1 he
  obtain ⟨i, hi⟩ := List.mem_iff_getElem?.1 he
  have hkey : (keys newKey (fs :: past))[i]? = some (newKey n) := hek ▸ getElem?_keys hi
  refine ⟨i, e, hi, hf, hek, fun j hj => ?_⟩
  exact (List.getElem?_inj (List.getElem?_eq_some_iff.1 hj).1 (nodup_keys hk _)).1
    (hj.trans hkey.symm)

/-- How the keys of the last pass, which has found `fs`, are told from each other and from those of the
passes before it. -/
structure KeysApart (newKey : KeySource) (fs : List Fragment) (past : Passes) : Prop where
  length_cache : (plan newKey (fs :: past)).cache.length = fs.length
  length_decisions : (plan newKey (fs :: past)).decisions.length = fs.length
  cache_keys : (plan newKey (fs :: past)).cache.map (·.key) = keys newKey (fs :: past)
  nodup : (keys newKey (fs :: past)).Nodup
  /-- A fresh key was never that of a fragment. -/
  fresh : ∀ (i : Nat) (e : KeyDecision), (plan newKey (fs :: past)).decisions[i]? = some e →
    e.fresh = true → ∀ g : Passes, g <:+ past → e.key ∉ keys newKey g
  /-- Any other key stays with its index. -/
  kept : ∀ (i : Nat) (e : KeyDecision), (plan newKey (fs :: past)).decisions[i]? = some e →
    e.fresh = false → (keys newKey past)[i]? = some e.key
  /-- What is drawn is used once. -/
  drawn : ∀ n, (plan newKey past).drawn ≤ n → n < (plan newKey (fs :: past)).drawn →
    ∃ (i : Nat) (e : KeyDecision), (plan newKey (fs :: past)).decisions[i]? = some e ∧
      e.fresh = true ∧ e.key = newKey n ∧
      ∀ j, (keys newKey (fs :: past))[j]? = some (newKey n) → j = i

/-- With a source that repeats no key, a key stands for one fragment of a pass, and it goes from one
pass to the next only with the index of the fragment. -/
theorem keys_apart (hk : Function.Injective newKey) (fs : List Fragment) (past : Passes) :
    KeysApart newKey fs past where
  length_cache := by
    rw [← List.length_map (·.key), cache_keys, keys, List.length_map]
    exact length_decisions newKey fs past
  length_decisions := length_decisions newKey fs past
  cache_keys := cache_keys newKey (fs :: past)
  nodup := nodup_keys hk (fs :: past)
  fresh := by
    intro i e he hf g hg
    obtain ⟨n, hn, -, hek⟩ := drawn_of_fresh he hf
    rw [hek]
    exact notMem_keys hk ((drawn_le_drawn hg).trans hn)
  kept := fun i e he hf => getElem?_keys_of_kept he hf
  drawn := fun n hn hn' => exists_decision_of_drawn hk hn hn'

/-- Two blocks are added behind statements that the cursor is in, one is taken away again as the cursor
leaves, and all that is left is made anew. -/
theorem keys_apart_grown_and_shrunk :
    Function.Injective strokes ∧
      KeysApart strokes [piece .blockStatement "t" false, piece .blockMarkup "a" false]
        [[piece .blockStatement "t" true, piece .blockMarkup "a" false, piece .blockMarkup "b" false],
          [piece .blockStatement "s" false]] :=
  ⟨strokes_injective, keys_apart strokes_injective _ _⟩

end Passes

end LiveNotes.Plan
