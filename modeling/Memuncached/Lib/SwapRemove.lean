import Mathlib.Data.List.Basic
import Mathlib.Data.List.Perm.Basic
import Mathlib.Data.List.Nodup

/-!
# Removal that fills the hole with the last element

`swapRemove l i` is `l` without its element at `i`, the last element moved to
`i`. The order changes and nothing else does: `l` is a permutation of the element
removed and what is left.
-/

namespace SwapRemove

open scoped List

variable {α : Type*}

/-- The list without its element at `i`, whose place the last one takes. -/
def swapRemove (l : List α) (i : ℕ) : List α :=
  match l.getLast? with
  | none => []
  | some last => (l.set i last).dropLast

@[simp] theorem length_swapRemove (l : List α) (i : ℕ) :
    (swapRemove l i).length = l.length - 1 := by
  unfold swapRemove
  cases h : l.getLast? with
  | none => simp [List.getLast?_eq_none_iff.mp h]
  | some last => simp

/-- What the places hold afterwards. -/
theorem getElem?_swapRemove {l : List α} {i j : ℕ} (hj : j < l.length - 1) :
    (swapRemove l i)[j]? = if i = j then l[l.length - 1]? else l[j]? := by
  unfold swapRemove
  cases h : l.getLast? with
  | none =>
    rw [List.getLast?_eq_none_iff.mp h] at hj
    simp at hj
  | some last =>
    rw [List.getLast?_eq_getElem?] at h
    rw [List.getElem?_dropLast, List.length_set, if_pos hj, List.getElem?_set, h]
    split_ifs with hij hi
    · rfl
    · omega
    · rfl

/-- Removing the last element moves none. -/
theorem swapRemove_last (l : List α) : swapRemove l (l.length - 1) = l.dropLast := by
  apply List.ext_getElem?
  intro j
  by_cases hj : j < l.length - 1
  · rw [getElem?_swapRemove hj, if_neg (by omega), List.getElem?_dropLast, if_pos hj]
  · rw [List.getElem?_eq_none (by simp; omega), List.getElem?_eq_none (by simp; omega)]

/-- The list is the removed element and what is left, in some order. -/
theorem swapRemove_perm {l : List α} {i : ℕ} {x : α} (hi : l[i]? = some x) :
    l.Perm (x :: swapRemove l i) := by
  obtain ⟨hlt, hx⟩ := List.getElem?_eq_some_iff.mp hi
  obtain ⟨front, last, rfl⟩ : ∃ front last, l = front ++ [last] := by
    refine ⟨l.dropLast, l.getLast (by rintro rfl; simp at hlt), ?_⟩
    rw [List.dropLast_append_getLast]
  by_cases hlast : i = front.length
  · have hrem : swapRemove (front ++ [last]) i = front := by
      rw [show i = (front ++ [last]).length - 1 by simp [hlast], swapRemove_last]
      simp
    have hxl : x = last := by
      rw [← hx]
      simp [hlast]
    rw [hrem, hxl]
    exact List.perm_append_singleton last front
  · have hif : i < front.length := by
      simp at hlt
      omega
    have hrem : swapRemove (front ++ [last]) i = front.set i last := by
      unfold swapRemove
      rw [List.getLast?_append, List.getLast?_singleton]
      simp [hif]
    have hxf : front[i] = x := by
      rw [← hx, List.getElem_append_left hif]
    rw [hrem, ← hxf]
    calc front ++ [last] ~ last :: front := List.perm_append_singleton last front
      _ ~ last :: (front[i] :: front.eraseIdx i) :=
          (List.getElem_cons_eraseIdx_perm hif).symm.cons _
      _ ~ front[i] :: (last :: front.eraseIdx i) := List.Perm.swap _ _ _
      _ ~ front[i] :: front.set i last := (List.set_perm_cons_eraseIdx hif last).symm.cons _

/-- From a list without repetitions exactly the removed element is missing. -/
theorem mem_swapRemove {l : List α} (hl : l.Nodup) {i : ℕ} {x : α} (hi : l[i]? = some x) (y : α) :
    y ∈ swapRemove l i ↔ y ∈ l ∧ y ≠ x := by
  have hperm := swapRemove_perm hi
  have hnot : x ∉ swapRemove l i := (List.nodup_cons.mp (hperm.nodup_iff.mp hl)).1
  rw [hperm.mem_iff, List.mem_cons]
  constructor
  · intro hy
    refine ⟨Or.inr hy, ?_⟩
    rintro rfl
    exact hnot hy
  · rintro ⟨rfl | hy, hne⟩
    · exact absurd rfl hne
    · exact hy

theorem nodup_swapRemove {l : List α} (hl : l.Nodup) {i : ℕ} {x : α} (hi : l[i]? = some x) :
    (swapRemove l i).Nodup :=
  (List.nodup_cons.mp ((swapRemove_perm hi).nodup_iff.mp hl)).2

end SwapRemove
