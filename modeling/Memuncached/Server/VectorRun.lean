import Mathlib.Data.Multiset.AddSub
import Memuncached.Lib.Transitions
import Memuncached.Server.Vector

/-!
# The vector over runs of inserts and removes

Runs on a vector made by `vector_create`, with what `realloc` returned and what
the memory it obtained holds as part of the inserts. A capacity is a plain
number: one from which doubling it overflows `size_t` needs more memory than an
allocator grants.

* `vector_keeps_elements`: with memory granted and removals below the count the
  vector holds what was inserted and not removed.
* `outOfRange_harmless_iff`: an access behind the count finds NULL unless it
  meets a slot that only `realloc` has ever filled.
* `vector_allocated`: with memory granted the capacity is the number of
  allocated slots, and nothing else is accessed.
-/

namespace Memuncached

open SwapRemove Transitions

/-! ## Runs -/

/-- An operation; `mem` is what `realloc` returns if the insert calls it. -/
inductive VectorOp (α : Type) where
  | insert (element : α) (mem : Option (ℕ → Option α))
  | remove (index : ℕ)

/-- A vector and its history: what was inserted and what `vector_remove_unsafe`
    returned, how many slots `calloc` or an element has been in, and what the
    memory held that was obtained last. -/
structure VectorHistory (α : Type) where
  vector : Vector α
  inserted : Multiset α
  removed : Multiset α
  used : ℕ
  fresh : ℕ → Option α

section VectorRun

variable {α : Type}

/-- A new vector. -/
def vectorHistory (size : ℕ) : VectorHistory α where
  vector := vectorCreate size
  inserted := 0
  removed := 0
  used := size
  fresh := fun _ => none

/-- One operation; `none` where it accesses a slot that is not allocated. -/
def vectorStep (s : VectorHistory α) : VectorOp α → Option (VectorHistory α)
  | .insert element mem =>
    (vectorInsertUnsafe s.vector (some element) mem).map fun (ok, vector) =>
      { s with
        vector := vector
        inserted := if ok then element ::ₘ s.inserted else s.inserted
        used := max s.used vector.count
        fresh := if s.vector.size = s.vector.count then mem.getD s.fresh else s.fresh }
  | .remove index =>
    (vectorRemoveUnsafe s.vector index).map fun (eptr, vector) =>
      { s with
        vector := vector
        removed :=
          match eptr with
          | none => s.removed
          | some x => x ::ₘ s.removed }

/-! ## Allocated slots -/

/-- The capacity is the number of allocated slots. -/
structure Vector.Allocated (v : Vector α) : Prop where
  length_eq : v.array.length = v.size
  size_pos : 0 < v.size
  count_le : v.count ≤ v.size

/-- No `realloc` fails, and nothing is taken out of an empty vector. -/
def Granted (s : VectorHistory α) : VectorOp α → Prop
  | .insert _ mem => s.vector.size = s.vector.count → mem.isSome = true
  | .remove index => s.vector.count = 0 → ∀ x, s.vector.array[index]? ≠ some (some x)

theorem vectorCreate_allocated {size : ℕ} (h : 0 < size) :
    (vectorCreate size : Vector α).Allocated where
  length_eq := List.length_replicate
  size_pos := h
  count_le := Nat.zero_le size

variable {v : Vector α}

theorem Vector.Allocated.insert (h : v.Allocated) (x : Option α) {mem : Option (ℕ → Option α)}
    (hmem : v.size = v.count → mem.isSome = true) :
    ∃ v', vectorInsertUnsafe v x mem = some (true, v') ∧ v'.Allocated ∧
      v'.count = v.count + 1 := by
  have hlength := h.length_eq
  have hpos := h.size_pos
  have hle := h.count_le
  by_cases hfull : v.size = v.count
  · obtain ⟨fresh, rfl⟩ := Option.isSome_iff_exists.mp (hmem hfull)
    have hgrown : (reallocSlots v.array (v.size * 2) fresh).length = v.size * 2 :=
      length_reallocSlots (by omega) fresh
    refine ⟨⟨(reallocSlots v.array (v.size * 2) fresh).set v.count x, v.size * 2, v.count + 1⟩, ?_,
      ⟨?_, ?_, ?_⟩, rfl⟩
    · rw [vectorInsertUnsafe, if_pos hfull]
      refine if_pos ?_
      show v.count < (reallocSlots v.array (v.size * 2) fresh).length
      rw [hgrown]
      omega
    · exact (List.length_set ..).trans hgrown
    · show 0 < v.size * 2
      omega
    · show v.count + 1 ≤ v.size * 2
      omega
  · refine ⟨⟨v.array.set v.count x, v.size, v.count + 1⟩, ?_, ⟨?_, hpos, ?_⟩, rfl⟩
    · rw [vectorInsertUnsafe, if_neg hfull]
      exact if_pos (by omega)
    · exact (List.length_set ..).trans hlength
    · show v.count + 1 ≤ v.size
      omega

theorem Vector.Allocated.remove (h : v.Allocated) {i : ℕ}
    (hempty : v.count = 0 → ∀ x, v.array[i]? ≠ some (some x)) :
    ∃ eptr v', vectorRemoveUnsafe v i = some (eptr, v') ∧ v'.Allocated := by
  have hlength := h.length_eq
  have hle := h.count_le
  by_cases hi : v.size ≤ i
  · exact ⟨none, v, if_pos hi, h⟩
  obtain ⟨slot, hslot⟩ : ∃ slot, v.array[i]? = some slot :=
    ⟨_, List.getElem?_eq_getElem (by omega)⟩
  cases slot with
  | none => exact ⟨none, v, by rw [vectorRemoveUnsafe, if_neg hi, hslot], h⟩
  | some x =>
    have hcount : v.count ≠ 0 := fun hzero => hempty hzero x hslot
    obtain ⟨v', hremove, hsize', hcount', hlength', -⟩ :=
      vectorRemoveUnsafe_some (by omega) hslot (by omega) (by omega)
    have hpos := h.size_pos
    exact ⟨some x, v', hremove, by omega, by omega, by omega⟩

/-- An insert that fails leaves the vector as it was exactly if none fails for
    want of memory. -/
theorem vectorInsertUnsafe_unchanged_iff (h : v.Allocated) (x : Option α)
    (mem : Option (ℕ → Option α)) :
    (∀ v', vectorInsertUnsafe v x mem = some (false, v') → v' = v) ↔
      (v.size = v.count → mem.isSome = true) := by
  have hpos := h.size_pos
  constructor
  · intro hsame hfull
    by_contra hnone
    rw [Bool.not_eq_true, Option.isSome_eq_false_iff, Option.isNone_iff_eq_none] at hnone
    subst hnone
    have hfail := hsame { v with size := v.size * 2 } (by rw [vectorInsertUnsafe, if_pos hfull])
    have hsize := congrArg Vector.size hfail
    dsimp only at hsize
    omega
  · intro hmem v' hv'
    obtain ⟨v'', hv'', -⟩ := h.insert x hmem
    rw [hv''] at hv'
    cases hv'

theorem vectorAtUnsafe_allocated (h : v.Allocated) (i : ℕ) : vectorAtUnsafe v i ≠ none := by
  have hlength := h.length_eq
  unfold vectorAtUnsafe
  split_ifs with hi
  · rw [List.getElem?_eq_getElem (by omega)]
    exact Option.some_ne_none _
  · exact Option.some_ne_none _

/-- The step lemma: with memory granted an operation stays inside of the
    allocated slots. -/
theorem vectorStep_allocated {s : VectorHistory α} {op : VectorOp α} (h : s.vector.Allocated)
    (hok : Granted s op) : ∃ t, vectorStep s op = some t ∧ t.vector.Allocated := by
  cases op with
  | insert x mem =>
    obtain ⟨v', hv', hallocated, -⟩ := h.insert (some x) hok
    exact ⟨_, by rw [vectorStep, hv', Option.map_some], hallocated⟩
  | remove i =>
    obtain ⟨eptr, v', hv', hallocated⟩ := h.remove hok
    exact ⟨_, by rw [vectorStep, hv', Option.map_some], hallocated⟩

/-- With memory granted the capacity is the number of allocated slots in every
    state, and no operation accesses another. An insert that fails then leaves
    the vector as it was exactly if it is granted its memory too. -/
theorem vector_allocated {n : ℕ} (hn : 1 ≤ n) {ops : List (VectorOp α)}
    (hok : Along vectorStep Granted (vectorHistory n) ops) :
    ∃ s, run vectorStep (vectorHistory n) ops = some s ∧
      s.vector.size = s.vector.array.length ∧
      (∀ i, vectorAtUnsafe s.vector i ≠ none) ∧
      (∀ op, Granted s op → vectorStep s op ≠ none) ∧
      ∀ x mem, (∀ v', vectorInsertUnsafe s.vector (some x) mem = some (false, v') → v' = s.vector) ↔
        Granted s (.insert x mem) := by
  obtain ⟨s, hs, hallocated⟩ := @run_of_along _ _ vectorStep Granted
    (fun s : VectorHistory α => s.vector.Allocated) (fun s op => vectorStep_allocated) _
    (vectorCreate_allocated hn) ops hok
  refine ⟨s, hs, hallocated.length_eq.symm, vectorAtUnsafe_allocated hallocated,
    fun op hop => ?_, fun x mem => vectorInsertUnsafe_unchanged_iff hallocated (some x) mem⟩
  obtain ⟨t, ht, -⟩ := vectorStep_allocated hallocated hop
  rw [ht]
  exact Option.some_ne_none t

/-- A vector with one slot and two elements, of which the first is removed; what
    `realloc` adds holds 9. -/
def growAndRemove : List (VectorOp ℕ) := [.insert 0 none, .insert 1 (some fun _ => some 9), .remove 0]

theorem vector_allocated_growAndRemove :
    ∃ s, run vectorStep (vectorHistory 1) growAndRemove = some s ∧
      s.vector.size = s.vector.array.length := by
  have hok : Along vectorStep Granted (vectorHistory 1) growAndRemove :=
    ⟨fun h => absurd h (by decide), fun _ => rfl, fun h => absurd h (by decide), trivial⟩
  obtain ⟨s, hs, hsize, -⟩ := vector_allocated (le_refl 1) hok
  exact ⟨s, hs, hsize⟩

/-- An insert for which `realloc` fails doubles the capacity, and the next one
    writes behind the array. -/
theorem failedInsert_harms :
    ∃ s t, run vectorStep (vectorHistory 1) [.insert 0 none] = some s ∧
      vectorInsertUnsafe s.vector (some 1) none = some (false, t) ∧ t ≠ s.vector ∧
      t.size ≠ t.array.length ∧ vectorInsertUnsafe t (some 2) none = none ∧
      vectorAtUnsafe t 1 = none :=
  ⟨_, _, rfl, rfl, by decide, by decide, rfl, rfl⟩

/-! ## What the vector holds -/

/-- `realloc` succeeds and removals stay below the count. -/
def InRange (s : VectorHistory α) : VectorOp α → Prop
  | .insert _ mem => s.vector.size = s.vector.count → mem.isSome = true
  | .remove index => index < s.vector.count

/-- The used slots hold the elements inserted and not removed, and a removal
    below the count takes out the one that is there and moves the last one to
    its place only. -/
structure VectorHistory.Keeps (s : VectorHistory α) : Prop where
  count_le : s.vector.count ≤ s.vector.size
  live : ∃ l : List α, l.length = s.vector.count ∧
    (∀ i (hi : i < l.length), s.vector.array[i]? = some (some l[i])) ∧
    s.inserted = l + s.removed
  remove : ∀ i < s.vector.count, ∃ x v', vectorRemoveUnsafe s.vector i = some (some x, v') ∧
    s.vector.array[i]? = some (some x) ∧ v'.count = s.vector.count - 1 ∧
    (i < s.vector.count - 1 → v'.array[i]? = s.vector.array[s.vector.count - 1]?) ∧
    ∀ j < s.vector.count - 1, j ≠ i → v'.array[j]? = s.vector.array[j]?

/-- The used slots are `l`, all that was inserted and not removed. -/
structure VectorHistory.Live (s : VectorHistory α) (l : List α) : Prop where
  allocated : s.vector.Allocated
  holds : s.vector.Holds l
  inserted : s.inserted = l + s.removed

theorem VectorHistory.Live.keeps {s : VectorHistory α} {l : List α} (h : s.Live l) : s.Keeps where
  count_le := h.allocated.count_le
  live := by
    refine ⟨l, h.holds.count_eq.symm, fun i hi => ?_, h.inserted⟩
    rw [h.holds.get i hi, List.getElem?_eq_getElem hi]
  remove := by
    intro i hi
    have hcount := h.holds.count_eq
    have hget : l[i]? = some l[i] := List.getElem?_eq_getElem (by omega)
    obtain ⟨v', hremove, -, hholds⟩ := vectorRemoveUnsafe_holds h.holds hget
    have hcount' := hholds.count_eq
    rw [length_swapRemove] at hcount'
    have hget' : ∀ j < l.length - 1, v'.array[j]? = some (swapRemove l i)[j]? := by
      intro j hj
      exact hholds.get j (by rwa [length_swapRemove])
    refine ⟨l[i], v', hremove, ?_, by omega, fun hlast => ?_, fun j hj hne => ?_⟩
    · rw [h.holds.get i (by omega), hget]
    · rw [hget' i (by omega), getElem?_swapRemove (by omega), if_pos rfl,
        h.holds.get _ (by omega), hcount]
    · rw [hget' j (by omega), getElem?_swapRemove (by omega), if_neg (Ne.symm hne),
        h.holds.get j (by omega)]

/-- The step lemma. -/
theorem vectorStep_live {s : VectorHistory α} {op : VectorOp α} (h : ∃ l, s.Live l)
    (hok : InRange s op) : ∃ t, vectorStep s op = some t ∧ ∃ l, t.Live l := by
  obtain ⟨l, hallocated, hholds, hinserted⟩ := h
  have hlength := hallocated.length_eq
  have hcount := hholds.count_eq
  cases op with
  | insert x mem =>
    obtain ⟨v', hv', hallocated', -⟩ := hallocated.insert (some x) hok
    have hroom : s.vector.HasRoom := by
      have := hallocated.count_le
      unfold Vector.HasRoom
      omega
    obtain ⟨ok, v'', hv'', -, hholds'⟩ :=
      vectorInsertUnsafe_holds hholds hallocated.size_pos hroom x mem
    rw [hv'] at hv''
    cases hv''
    refine ⟨_, by rw [vectorStep, hv', Option.map_some], l ++ [x], hallocated', hholds', ?_⟩
    show x ::ₘ s.inserted = ((l ++ [x] : List α) : Multiset α) + s.removed
    rw [hinserted, ← Multiset.coe_add, Multiset.coe_singleton, Multiset.add_comm l {x},
      Multiset.add_assoc, Multiset.singleton_add]
  | remove i =>
    have hi : i < s.vector.count := hok
    have hget : l[i]? = some l[i] := List.getElem?_eq_getElem (by omega)
    obtain ⟨v', hv', -, hholds'⟩ := vectorRemoveUnsafe_holds hholds hget
    obtain ⟨eptr, v'', hv'', hallocated'⟩ := hallocated.remove (i := i) fun hzero => by omega
    rw [hv'] at hv''
    cases hv''
    refine ⟨_, by rw [vectorStep, hv', Option.map_some], swapRemove l i, hallocated', hholds', ?_⟩
    show s.inserted = (swapRemove l i : Multiset α) + (l[i] ::ₘ s.removed)
    rw [hinserted, Multiset.coe_eq_coe.mpr (swapRemove_perm hget), ← Multiset.cons_coe,
      Multiset.cons_add, Multiset.add_cons]

/-- The access finds NULL and changes nothing. -/
def Harmless (v : Vector α) (index : ℕ) : Prop :=
  vectorAtUnsafe v index = some none ∧
    ∃ v', vectorRemoveUnsafe v index = some (none, v') ∧ v'.array = v.array ∧ v'.count = v.count

/-- The index is beyond the capacity, or of a slot that `calloc` zeroed or an
    element has been in, or `realloc` happened to obtain memory with NULL there. -/
def VectorHistory.Null (s : VectorHistory α) (index : ℕ) : Prop :=
  s.vector.size ≤ index ∨ index < s.used ∨
    (index < s.vector.array.length ∧ s.fresh index = none)

/-- Removals stay below the count or are at such an index. -/
def Quiet (s : VectorHistory α) : VectorOp α → Prop
  | .insert _ _ => True
  | .remove index => index < s.vector.count ∨ s.Null index

/-- What the slots behind the count hold. -/
structure VectorHistory.Dead (s : VectorHistory α) : Prop where
  count_le : s.vector.count ≤ s.used
  used_le : s.used ≤ s.vector.array.length
  length_le : s.vector.array.length ≤ s.vector.size
  size_pos : 0 < s.vector.size
  null : ∀ i, s.vector.count ≤ i → i < s.used → s.vector.array[i]? = some none
  fresh : ∀ i, s.used ≤ i → i < s.vector.array.length → s.vector.array[i]? = some (s.fresh i)

theorem vectorHistory_dead {n : ℕ} (hn : 1 ≤ n) : (vectorHistory n : VectorHistory α).Dead where
  count_le := Nat.zero_le n
  used_le := by simp [vectorHistory, vectorCreate]
  length_le := by simp [vectorHistory, vectorCreate]
  size_pos := hn
  null := by
    intro i _ hi
    have hi : i < n := hi
    simp [vectorHistory, vectorCreate, hi]
  fresh := by
    intro i hi hlength
    have hi : n ≤ i := hi
    simp only [vectorHistory, vectorCreate, List.length_replicate] at hlength
    omega

/-- A removal that finds NULL changes nothing. -/
theorem vectorRemoveUnsafe_null {v' : Vector α} {i : ℕ}
    (h : vectorRemoveUnsafe v i = some (none, v')) : v' = v := by
  unfold vectorRemoveUnsafe at h
  split_ifs at h with hsize
  · cases h
    rfl
  cases hslot : v.array[i]? with
  | none =>
    rw [hslot] at h
    cases h
  | some slot =>
    rw [hslot] at h
    cases slot with
    | none =>
      cases h
      rfl
    | some x =>
      dsimp only at h
      split_ifs at h
      · split at h
        · cases h
        · cases h
      · cases h

/-- Below the capacity an access is harmless exactly at NULL. -/
theorem harmless_iff_null {i : ℕ} (hi : i < v.size) : Harmless v i ↔ v.array[i]? = some none := by
  have hat : vectorAtUnsafe v i = v.array[i]? := if_pos hi
  constructor
  · rintro ⟨hnull, -⟩
    rwa [hat] at hnull
  · intro hnull
    refine ⟨by rwa [hat], v, ?_, rfl, rfl⟩
    rw [vectorRemoveUnsafe, if_neg (by omega), hnull]

theorem VectorHistory.Dead.harmless_iff {s : VectorHistory α} (h : s.Dead) {i : ℕ}
    (hi : s.vector.count ≤ i) : Harmless s.vector i ↔ s.Null i := by
  have hused := h.used_le
  have hlength := h.length_le
  by_cases hsize : s.vector.size ≤ i
  · exact iff_of_true ⟨if_neg (by omega), s.vector, if_pos hsize, rfl, rfl⟩ (Or.inl hsize)
  rw [harmless_iff_null (by omega)]
  by_cases hi' : i < s.used
  · exact iff_of_true (h.null i hi hi') (Or.inr (Or.inl hi'))
  unfold VectorHistory.Null
  by_cases hallocated : i < s.vector.array.length
  · rw [h.fresh i (by omega) hallocated, Option.some.injEq]
    constructor
    · exact fun hnone => Or.inr (Or.inr ⟨hallocated, hnone⟩)
    · rintro (hbig | hsmall | ⟨-, hnone⟩)
      · omega
      · omega
      · exact hnone
  · rw [List.getElem?_eq_none (by omega)]
    refine iff_of_false (by simp) ?_
    rintro (hbig | hsmall | ⟨hlt, -⟩)
    · omega
    · omega
    · exact hallocated hlt

/-- The slots that `realloc` adds hold what the memory held. -/
theorem getElem?_reallocSlots_new {array : List (Option α)} {size i : ℕ}
    (h : array.length ≤ size) (hi : array.length ≤ i) (hsize : i < size) (fresh : ℕ → Option α) :
    (reallocSlots array size fresh)[i]? = some (fresh i) := by
  have hindex : array.length + (i - array.length) = i := by omega
  rw [reallocSlots, List.take_of_length_le h, List.getElem?_append_right hi, List.getElem?_map,
    List.getElem?_range' (by omega), Nat.one_mul, hindex]
  rfl

/-- A store right behind the count. -/
theorem VectorHistory.Dead.store {s : VectorHistory α} (h : s.Dead) {x : α} {r : Bool × Vector α}
    (hstore : vectorStore s.vector (some x) = some r) :
    VectorHistory.Dead { s with vector := r.2, used := max s.used r.2.count } := by
  have hcount := h.count_le
  have hused := h.used_le
  have hlength := h.length_le
  unfold vectorStore at hstore
  split_ifs at hstore with hroom
  cases hstore
  refine ⟨le_max_right _ _, ?_, ?_, h.size_pos, fun i hi hi' => ?_, fun i hi hi' => ?_⟩
  · show max s.used (s.vector.count + 1) ≤ (s.vector.array.set s.vector.count (some x)).length
    rw [List.length_set]
    omega
  · show (s.vector.array.set s.vector.count (some x)).length ≤ s.vector.size
    rwa [List.length_set]
  · have hi : s.vector.count + 1 ≤ i := hi
    have hi' : i < max s.used (s.vector.count + 1) := hi'
    show (s.vector.array.set s.vector.count (some x))[i]? = some none
    rw [List.getElem?_set_ne (by omega), h.null i (by omega) (by omega)]
  · have hi : max s.used (s.vector.count + 1) ≤ i := hi
    have hi' : i < (s.vector.array.set s.vector.count (some x)).length := hi'
    rw [List.length_set] at hi'
    show (s.vector.array.set s.vector.count (some x))[i]? = some (s.fresh i)
    rw [List.getElem?_set_ne (by omega), h.fresh i (by omega) hi']

/-- The vector with its capacity doubled, all its slots in use. -/
theorem VectorHistory.Dead.grown {s : VectorHistory α} (h : s.Dead)
    (hfull : s.vector.size = s.vector.count) (fresh : ℕ → Option α) :
    VectorHistory.Dead { s with vector := s.vector.grown fresh, fresh := fresh } := by
  have hcount := h.count_le
  have hused := h.used_le
  have hlength := h.length_le
  have hpos := h.size_pos
  have hgrown : (s.vector.grown fresh).array.length = s.vector.size * 2 :=
    length_reallocSlots (by omega) fresh
  refine ⟨hcount, ?_, Nat.le_of_eq hgrown, ?_, fun i hi hi' => ?_, fun i hi hi' => ?_⟩
  · show s.used ≤ (s.vector.grown fresh).array.length
    omega
  · show 0 < s.vector.size * 2
    omega
  · have hi : s.vector.count ≤ i := hi
    have hi' : i < s.used := hi'
    omega
  · have hi : s.used ≤ i := hi
    have hi' : i < (s.vector.grown fresh).array.length := hi'
    exact getElem?_reallocSlots_new (by omega) (by omega) (by omega) fresh

theorem VectorHistory.Dead.insert {s t : VectorHistory α} (h : s.Dead) {x : α}
    {mem : Option (ℕ → Option α)} (hstep : vectorStep s (.insert x mem) = some t) : t.Dead := by
  obtain ⟨r, hr, rfl⟩ := Option.map_eq_some_iff.mp hstep
  by_cases hfull : s.vector.size = s.vector.count
  · rw [vectorInsertUnsafe, if_pos hfull] at hr
    cases mem with
    | none =>
      cases hr
      have hcount := h.count_le
      have hlength := h.length_le
      have hmax : max s.used s.vector.count = s.used := max_eq_left hcount
      refine ⟨le_max_right _ _, ?_, ?_, ?_, fun i hi hi' => ?_, fun i hi hi' => ?_⟩
      · show max s.used s.vector.count ≤ s.vector.array.length
        rw [hmax]
        exact h.used_le
      · show s.vector.array.length ≤ s.vector.size * 2
        omega
      · show 0 < s.vector.size * 2
        have := h.size_pos
        omega
      · have hi' : i < max s.used s.vector.count := hi'
        rw [hmax] at hi'
        exact h.null i hi hi'
      · have hi : max s.used s.vector.count ≤ i := hi
        rw [hmax] at hi
        show s.vector.array[i]? = some _
        rw [h.fresh i hi hi', if_pos hfull]
        rfl
    | some fresh =>
      have hdead := (h.grown hfull fresh).store hr
      show VectorHistory.Dead { s with
        vector := r.2
        inserted := if r.1 then x ::ₘ s.inserted else s.inserted
        used := max s.used r.2.count
        fresh := if s.vector.size = s.vector.count then fresh else s.fresh }
      rw [if_pos hfull]
      exact ⟨hdead.count_le, hdead.used_le, hdead.length_le, hdead.size_pos, hdead.null,
        hdead.fresh⟩
  · rw [vectorInsertUnsafe, if_neg hfull] at hr
    have hdead := h.store hr
    show VectorHistory.Dead { s with
      vector := r.2
      inserted := if r.1 then x ::ₘ s.inserted else s.inserted
      used := max s.used r.2.count
      fresh := if s.vector.size = s.vector.count then mem.getD s.fresh else s.fresh }
    rw [if_neg hfull]
    exact ⟨hdead.count_le, hdead.used_le, hdead.length_le, hdead.size_pos, hdead.null, hdead.fresh⟩

/-- A removal below the count. -/
theorem VectorHistory.Dead.remove_live {s t : VectorHistory α} (h : s.Dead) {i : ℕ}
    (hi : i < s.vector.count) (hstep : vectorStep s (.remove i) = some t) : t.Dead := by
  obtain ⟨⟨eptr, v'⟩, hremove, rfl⟩ := Option.map_eq_some_iff.mp hstep
  have hcount := h.count_le
  have hused := h.used_le
  have hlength := h.length_le
  obtain ⟨slot, hslot⟩ : ∃ slot, s.vector.array[i]? = some slot :=
    ⟨_, List.getElem?_eq_getElem (by omega)⟩
  cases slot with
  | none =>
    rw [vectorRemoveUnsafe, if_neg (by omega), hslot] at hremove
    cases hremove
    exact ⟨hcount, hused, hlength, h.size_pos, h.null, h.fresh⟩
  | some x =>
    obtain ⟨v'', hremove', hsize', hcount', hlength', -, hlast, hframe⟩ :=
      vectorRemoveUnsafe_some (by omega) hslot (by omega) (by omega)
    rw [hremove'] at hremove
    cases hremove
    have hpos := h.size_pos
    refine ⟨?_, ?_, ?_, ?_, fun j hj hj' => ?_, fun j hj hj' => ?_⟩
    · show v'.count ≤ s.used
      omega
    · show s.used ≤ v'.array.length
      omega
    · show v'.array.length ≤ v'.size
      omega
    · show 0 < v'.size
      omega
    · have hj : v'.count ≤ j := hj
      have hj' : j < s.used := hj'
      show v'.array[j]? = some none
      by_cases hlastj : j = s.vector.count - 1
      · rw [hlastj, hlast hi]
      · rw [hframe j (by omega) hlastj, h.null j (by omega) hj']
    · have hj : s.used ≤ j := hj
      have hj' : j < v'.array.length := hj'
      show v'.array[j]? = some (s.fresh j)
      rw [hframe j (by omega) (by omega), h.fresh j hj (by omega)]

/-- The step lemma. -/
theorem vectorStep_dead {s t : VectorHistory α} {op : VectorOp α} (h : s.Dead) (hok : Quiet s op)
    (hstep : vectorStep s op = some t) : t.Dead := by
  cases op with
  | insert x mem => exact h.insert hstep
  | remove i =>
    by_cases hi : i < s.vector.count
    · exact h.remove_live hi hstep
    · obtain ⟨-, v', hremove, -⟩ :=
        (h.harmless_iff (by omega)).mpr (hok.resolve_left hi)
      rw [vectorStep, hremove, Option.map_some] at hstep
      cases hstep
      rw [vectorRemoveUnsafe_null hremove]
      exact h

/-- After a run with quiet removals an access behind the count is harmless
    exactly beyond the capacity, at a slot that `calloc` or an element has been
    in, or where the memory from `realloc` holds NULL. -/
theorem outOfRange_harmless_iff {n : ℕ} (hn : 1 ≤ n) {s : VectorHistory α}
    (hs : Reaches vectorStep Quiet (· = vectorHistory n) s) {i : ℕ} (hi : s.vector.count ≤ i) :
    Harmless s.vector i ↔ s.Null i := by
  have hdead : s.Dead := by
    refine hs.invariant (fun t ht => ?_) fun t op u ht hok hstep => vectorStep_dead ht hok hstep
    rw [ht]
    exact vectorHistory_dead hn
  exact hdead.harmless_iff hi

end VectorRun

theorem outOfRange_harmless_growAndRemove :
    ∃ s, run vectorStep (vectorHistory 1) growAndRemove = some s ∧ Harmless s.vector 1 := by
  have hok : Along vectorStep Quiet (vectorHistory 1) growAndRemove :=
    ⟨trivial, trivial, Or.inl (by decide), trivial⟩
  exact ⟨_, rfl, (outOfRange_harmless_iff (le_refl 1) (run_reaches (.init rfl) hok rfl)
    (by decide)).mpr (Or.inr (Or.inl (by decide)))⟩

/-- The last slot of a vector that has grown to four of them. -/
theorem not_harmless_grown :
    ∃ s, run vectorStep (vectorHistory 2)
        [.insert 0 none, .insert 1 none, .insert 2 (some fun _ => some 9)] = some s ∧
      s.vector.count ≤ 3 ∧ vectorAtUnsafe s.vector 3 = some (some 9) ∧
      ¬ Harmless s.vector 3 := by
  refine ⟨_, rfl, by decide, rfl, ?_⟩
  rintro ⟨hat, -⟩
  revert hat
  decide

end Memuncached
