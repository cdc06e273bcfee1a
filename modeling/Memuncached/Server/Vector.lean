import Mathlib.Algebra.Group.Nat.Defs
import Memuncached.Lib.SwapRemove

/-!
# The vector of pointers

`vector_t` (vector.c): an array of pointers with its capacity `size` and the
number `count` of slots in use. `array` is the memory behind the pointer, so its
length is what has been allocated; a slot is `none` where it holds `NULL`.

* `Vector.Holds v l`: the used slots of `v` are the pointers `l`.
* `vectorInsertUnsafe_holds`, `vectorRemoveUnsafe_holds`: an insert appends, a
  removal is `swapRemove`.
-/

namespace Memuncached

open SwapRemove

/-- `vector_t` without its lock (vector.h, lines 21-26). -/
structure Vector (α : Type) where
  array : List (Option α)
  size : ℕ
  count : ℕ
  deriving DecidableEq, Repr

section Vector

variable {α : Type}

/-! ## Operations -/

/-- `vector_create` with memory granted (vector.c, lines 3-17). -/
def vectorCreate (size : ℕ) : Vector α where
  array := List.replicate size none
  size := size
  count := 0

/-- `vector_at_unsafe` (vector.c, lines 26-35). The outer `none` is a read
    outside of the allocated slots. -/
def vectorAtUnsafe (v : Vector α) (index : ℕ) : Option (Option α) :=
  if index < v.size then v.array[index]? else some none

/-- The slots after `realloc` to `size` slots. `fresh` is what the memory newly
    obtained holds. -/
def reallocSlots (array : List (Option α)) (size : ℕ) (fresh : ℕ → Option α) : List (Option α) :=
  array.take size ++ (List.range' array.length (size - array.length)).map fresh

/-- `v->array[v->count++] = element` (vector.c, line 57), where the slot is
    allocated. -/
def vectorStore (v : Vector α) (element : Option α) : Option (Bool × Vector α) :=
  if v.count < v.array.length then
    some (true, { v with array := v.array.set v.count element, count := v.count + 1 })
  else none

/-- `vector_insert_unsafe` (vector.c, lines 45-60). `mem` is the result of
    `realloc`: `none` for `NULL`, or the contents of the new slots. The outer
    `none` is a write outside of the allocated slots. -/
def vectorInsertUnsafe (v : Vector α) (element : Option α) (mem : Option (ℕ → Option α)) :
    Option (Bool × Vector α) :=
  if v.size = v.count then
    let v := { v with size := v.size * 2 }
    match mem with
    | none => some (false, v)
    | some fresh => vectorStore { v with array := reallocSlots v.array v.size fresh } element
  else vectorStore v element

/-- `--count` on a `size_t`. -/
def sizeDec (count : ℕ) : ℕ := if count = 0 then 2 ^ 64 - 1 else count - 1

/-- `vector_remove_unsafe` (vector.c, lines 70-91). The outer `none` is an access
    outside of the allocated slots. -/
def vectorRemoveUnsafe (v : Vector α) (index : ℕ) : Option (Option α × Vector α) :=
  if v.size ≤ index then some (none, v)
  else
    match v.array[index]? with
    | none => none
    | some none => some (none, v)
    | some (some eptr) =>
      let array := v.array.set index none
      let count := sizeDec v.count
      if 0 < count then
        match array[count]? with
        | none => none
        | some last =>
          some (some eptr, { v with array := (array.set index last).set count none, count := count })
      else some (some eptr, { v with array := array, count := count })

/-! ## What a vector holds -/

/-- The used slots are `l`; they are allocated, and the capacity does not claim
    less than is allocated. -/
structure Vector.Holds (v : Vector α) (l : List α) : Prop where
  count_eq : v.count = l.length
  count_le : v.count ≤ v.array.length
  length_le : v.array.length ≤ v.size
  get : ∀ i < l.length, v.array[i]? = some l[i]?

theorem vectorCreate_holds (size : ℕ) : (vectorCreate size : Vector α).Holds [] where
  count_eq := rfl
  count_le := Nat.zero_le _
  length_le := by simp [vectorCreate]
  get := by simp

variable {v : Vector α} {l : List α}

theorem Vector.Holds.at (h : v.Holds l) {i : ℕ} (hi : i < l.length) :
    vectorAtUnsafe v i = some l[i]? := by
  have hcount := h.count_eq
  have hle := h.count_le
  have hsize := h.length_le
  rw [vectorAtUnsafe, if_pos (by omega), h.get i hi]

theorem length_reallocSlots {array : List (Option α)} {size : ℕ} (h : array.length ≤ size)
    (fresh : ℕ → Option α) : (reallocSlots array size fresh).length = size := by
  simp [reallocSlots]
  omega

theorem getElem?_reallocSlots {array : List (Option α)} {size i : ℕ} (h : array.length ≤ size)
    (hi : i < array.length) (fresh : ℕ → Option α) :
    (reallocSlots array size fresh)[i]? = array[i]? := by
  rw [reallocSlots, List.take_of_length_le h, List.getElem?_append_left hi]

/-- The slot an insert writes to is allocated: the array is full and grows, or
    it has a slot left. -/
def Vector.HasRoom (v : Vector α) : Prop := v.size = v.count ∨ v.count < v.array.length

instance (v : Vector α) : Decidable v.HasRoom := inferInstanceAs (Decidable (_ ∨ _))

/-- The vector with its capacity doubled and memory to match. -/
def Vector.grown (v : Vector α) (fresh : ℕ → Option α) : Vector α where
  array := reallocSlots v.array (v.size * 2) fresh
  size := v.size * 2
  count := v.count

theorem Vector.Holds.length_grown (h : v.Holds l) (fresh : ℕ → Option α) :
    (v.grown fresh).array.length = v.size * 2 := by
  have := h.length_le
  exact length_reallocSlots (by omega) fresh

theorem Vector.Holds.grown (h : v.Holds l) (fresh : ℕ → Option α) : (v.grown fresh).Holds l where
  count_eq := h.count_eq
  count_le := by
    have := h.count_le
    have := h.length_le
    rw [h.length_grown]
    show v.count ≤ v.size * 2
    omega
  length_le := Nat.le_of_eq (h.length_grown fresh)
  get := by
    intro i hi
    have := h.count_eq
    have := h.count_le
    have := h.length_le
    show (reallocSlots v.array (v.size * 2) fresh)[i]? = _
    rw [getElem?_reallocSlots (by omega) (by omega), h.get i hi]

/-- The store of an insert appends. -/
theorem vectorStore_holds (h : v.Holds l) (hroom : v.count < v.array.length) (x : α) :
    ∃ v', vectorStore v (some x) = some (true, v') ∧ v'.size = v.size ∧ v'.Holds (l ++ [x]) := by
  have hcount := h.count_eq
  refine ⟨_, if_pos hroom, rfl, ⟨?_, ?_, ?_, ?_⟩⟩
  · simp [hcount]
  · simp only [List.length_set]
    omega
  · simpa using h.length_le
  · intro i hi
    simp only [List.length_append, List.length_singleton] at hi
    by_cases hlast : i = v.count
    · rw [hlast, List.getElem?_set_self hroom, hcount, List.getElem?_append_right (by omega)]
      simp
    · rw [List.getElem?_set_ne (by omega), h.get i (by omega),
        List.getElem?_append_left (by omega)]

/-- An insert appends, or fails with the capacity raised and nothing else. -/
theorem vectorInsertUnsafe_holds (h : v.Holds l) (hpos : 0 < v.size) (hroom : v.HasRoom) (x : α)
    (mem : Option (ℕ → Option α)) :
    ∃ ok v', vectorInsertUnsafe v (some x) mem = some (ok, v') ∧ 0 < v'.size ∧
      v'.Holds (if ok then l ++ [x] else l) := by
  have hcount := h.count_le
  have hlength := h.length_le
  by_cases hfull : v.size = v.count
  · rw [vectorInsertUnsafe, if_pos hfull]
    cases mem with
    | none =>
      refine ⟨false, _, rfl, ?_, h.count_eq, h.count_le, ?_, h.get⟩
      · show 0 < v.size * 2
        omega
      · show v.array.length ≤ v.size * 2
        omega
    | some fresh =>
      have hlt : (v.grown fresh).count < (v.grown fresh).array.length := by
        rw [h.length_grown]
        show v.count < v.size * 2
        omega
      obtain ⟨v', hstore, hsize, hholds⟩ := vectorStore_holds (h.grown fresh) hlt x
      refine ⟨true, v', hstore, ?_, hholds⟩
      rw [hsize]
      show 0 < v.size * 2
      omega
  · rw [vectorInsertUnsafe, if_neg hfull]
    obtain ⟨v', hstore, hsize, hholds⟩ := vectorStore_holds h (hroom.resolve_left hfull) x
    exact ⟨true, v', hstore, by omega, hholds⟩

/-- A removal at a slot that is not NULL takes the pointer out, puts the last one
    of the used slots in its place and NULL in the place of that. -/
theorem vectorRemoveUnsafe_some {i : ℕ} {x : α} (hi : i < v.size)
    (hslot : v.array[i]? = some (some x)) (hcount : 0 < v.count) (hle : v.count ≤ v.array.length) :
    ∃ v', vectorRemoveUnsafe v i = some (some x, v') ∧ v'.size = v.size ∧
      v'.count = v.count - 1 ∧ v'.array.length = v.array.length ∧
      (i < v.count - 1 → v'.array[i]? = v.array[v.count - 1]?) ∧
      (i < v.count → v'.array[v.count - 1]? = some none) ∧
      ∀ j, j ≠ i → j ≠ v.count - 1 → v'.array[j]? = v.array[j]? := by
  obtain ⟨hlt, -⟩ := List.getElem?_eq_some_iff.mp hslot
  have hdec : sizeDec v.count = v.count - 1 := if_neg (by omega)
  by_cases hone : 0 < v.count - 1
  · have hlast : v.count - 1 < (v.array.set i none).length := by
      rw [List.length_set]
      omega
    refine ⟨⟨((v.array.set i none).set i (v.array.set i none)[v.count - 1]).set (v.count - 1) none,
      v.size, v.count - 1⟩, ?_, rfl, rfl, by simp, fun hil => ?_, fun _ => ?_, fun j hji hjl => ?_⟩
    · rw [vectorRemoveUnsafe, if_neg (by omega), hslot]
      dsimp only
      rw [hdec, if_pos hone, List.getElem?_eq_getElem hlast]
    · rw [List.getElem?_set_ne (by omega), List.getElem?_set_self (by rwa [List.length_set]),
        ← List.getElem?_eq_getElem hlast, List.getElem?_set_ne (by omega)]
    · exact List.getElem?_set_self (by rwa [List.length_set])
    · rw [List.getElem?_set_ne (Ne.symm hjl), List.getElem?_set_ne (Ne.symm hji),
        List.getElem?_set_ne (Ne.symm hji)]
  · refine ⟨⟨v.array.set i none, v.size, v.count - 1⟩, ?_, rfl, rfl, by simp, fun hil => by omega,
      fun hic => ?_, fun j hji _ => List.getElem?_set_ne (Ne.symm hji)⟩
    · rw [vectorRemoveUnsafe, if_neg (by omega), hslot]
      dsimp only
      rw [hdec, if_neg hone]
    · have hfirst : v.count - 1 = i := by omega
      rw [hfirst, List.getElem?_set_self hlt]

/-- A removal inside the used slots returns the pointer that was there and fills
    its slot with the last one. -/
theorem vectorRemoveUnsafe_holds (h : v.Holds l) {i : ℕ} {x : α} (hi : l[i]? = some x) :
    ∃ v', vectorRemoveUnsafe v i = some (some x, v') ∧ v'.size = v.size ∧
      v'.Holds (swapRemove l i) := by
  obtain ⟨hlt, -⟩ := List.getElem?_eq_some_iff.mp hi
  have hcount := h.count_eq
  have hle := h.count_le
  have hsize := h.length_le
  have hget : v.array[i]? = some (some x) := by rw [h.get i hlt, hi]
  obtain ⟨v', hremove, hsize', hcount', hlength, hlast, -, hframe⟩ :=
    vectorRemoveUnsafe_some (by omega) hget (by omega) hle
  refine ⟨v', hremove, hsize', ?_, by omega, by omega, fun j hj => ?_⟩
  · rw [hcount', hcount, length_swapRemove]
  · rw [length_swapRemove] at hj
    rw [getElem?_swapRemove hj]
    split_ifs with hij
    · rw [← hij, hlast (by omega), hcount, h.get _ (by omega)]
    · rw [hframe j (Ne.symm hij) (by omega), h.get j (by omega)]

end Vector

end Memuncached
