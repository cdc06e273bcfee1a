import Mathlib

/-!
# Streams that arrive in segments

A byte stream reaches its reader in segments of any positive size. A read asks
for at most `want` elements and gets the front of the first segment; what it
does not take stays in front of the stream.

* `Cut segs s`: the segments `segs` are a cut of the stream `s`.
* `dropBytes n segs`: the segments left after `n` elements have been taken.
* `read want segs`: one read, `Cut.read` its effect on the stream.
* `spill want segs pos`: how many elements arrive in the same read as element
  number `pos`, behind it, when the stream is read `want` at a time.
-/

namespace Segments

variable {α : Type*}

/-- `segs` cuts the stream `s` into non-empty segments. -/
structure Cut (segs : List (List α)) (s : List α) : Prop where
  flatten : segs.flatten = s
  ne_nil : ∀ seg ∈ segs, seg ≠ []

/-- The segments left after `n` elements have been taken off the front. -/
def dropBytes : ℕ → List (List α) → List (List α)
  | _, [] => []
  | n, seg :: segs => if n < seg.length then seg.drop n :: segs else dropBytes (n - seg.length) segs

/-- One read of at most `want` elements: what it returns and what is left. -/
def read (want : ℕ) : List (List α) → List α × List (List α)
  | [] => ([], [])
  | seg :: segs =>
    if seg.length ≤ want then (seg, segs) else (seg.take want, seg.drop want :: segs)

/-- The number of elements a stream read `want` at a time delivers behind
    element number `pos` (counted from 1) in the same read. -/
def spill (want : ℕ) : List (List α) → ℕ → ℕ
  | [], _ => 0
  | seg :: segs, pos =>
    if pos ≤ seg.length then min seg.length ((pos + want - 1) / want * want) - pos
    else spill want segs (pos - seg.length)

/-! ## Cuts -/

theorem Cut.nil : Cut ([] : List (List α)) [] := ⟨rfl, by simp⟩

theorem Cut.tail {seg : List α} {segs : List (List α)} {s : List α} (h : Cut (seg :: segs) s) :
    Cut segs segs.flatten :=
  ⟨rfl, fun x hx => h.ne_nil x (List.mem_cons_of_mem _ hx)⟩

theorem Cut.head_ne_nil {seg : List α} {segs : List (List α)} {s : List α}
    (h : Cut (seg :: segs) s) : seg ≠ [] := h.ne_nil seg List.mem_cons_self

theorem Cut.eq_nil {segs : List (List α)} (h : Cut segs []) : segs = [] := by
  cases segs with
  | nil => rfl
  | cons seg segs =>
    have hf := h.flatten
    simp only [List.flatten_cons, List.append_eq_nil_iff] at hf
    exact absurd hf.1 h.head_ne_nil

theorem Cut.exists_cons {segs : List (List α)} {s : List α} (h : Cut segs s) (hs : s ≠ []) :
    ∃ seg rest, segs = seg :: rest := by
  cases segs with
  | nil => exact absurd h.flatten.symm (by simpa using hs)
  | cons seg rest => exact ⟨seg, rest, rfl⟩

@[simp] theorem dropBytes_nil (n : ℕ) : dropBytes n ([] : List (List α)) = [] := rfl

theorem dropBytes_cons (n : ℕ) (seg : List α) (segs : List (List α)) :
    dropBytes n (seg :: segs) =
      if n < seg.length then seg.drop n :: segs else dropBytes (n - seg.length) segs := rfl

theorem dropBytes_zero {segs : List (List α)} (h : ∀ seg ∈ segs, seg ≠ []) :
    dropBytes 0 segs = segs := by
  cases segs with
  | nil => rfl
  | cons seg segs =>
    have hpos : 0 < seg.length := List.length_pos_of_ne_nil (h seg List.mem_cons_self)
    rw [dropBytes_cons, if_pos hpos, List.drop_zero]

theorem flatten_dropBytes (n : ℕ) (segs : List (List α)) :
    (dropBytes n segs).flatten = segs.flatten.drop n := by
  induction segs generalizing n with
  | nil => simp
  | cons seg segs ih =>
    rw [dropBytes_cons]
    split_ifs with hn
    · rw [List.flatten_cons, List.flatten_cons, List.drop_append_of_le_length (by omega)]
    · have hnil : seg.drop n = [] := List.drop_eq_nil_of_le (by omega)
      rw [ih, List.flatten_cons, List.drop_append, hnil, List.nil_append]

theorem dropBytes_ne_nil {segs : List (List α)} (h : ∀ seg ∈ segs, seg ≠ []) (n : ℕ) :
    ∀ seg ∈ dropBytes n segs, seg ≠ [] := by
  induction segs generalizing n with
  | nil => simp
  | cons seg segs ih =>
    rw [dropBytes_cons]
    split_ifs with hn
    · intro x hx
      rcases List.mem_cons.mp hx with rfl | hx
      · exact List.ne_nil_of_length_pos (by rw [List.length_drop]; omega)
      · exact h x (List.mem_cons_of_mem _ hx)
    · exact ih (fun x hx => h x (List.mem_cons_of_mem _ hx)) _

theorem Cut.dropBytes {segs : List (List α)} {s : List α} (h : Cut segs s) (n : ℕ) :
    Cut (dropBytes n segs) (s.drop n) :=
  ⟨by rw [flatten_dropBytes, h.flatten], dropBytes_ne_nil h.ne_nil n⟩

/-- Taking `n` elements and then `m` more takes `n + m`. -/
theorem dropBytes_add {segs : List (List α)} (h : ∀ seg ∈ segs, seg ≠ []) (n m : ℕ) :
    Segments.dropBytes m (Segments.dropBytes n segs) = Segments.dropBytes (n + m) segs := by
  induction segs generalizing n with
  | nil => simp
  | cons seg segs ih =>
    have htail : ∀ x ∈ segs, x ≠ [] := fun x hx => h x (List.mem_cons_of_mem _ hx)
    by_cases hn : n < seg.length
    · rw [dropBytes_cons, if_pos hn, dropBytes_cons, dropBytes_cons]
      simp only [List.length_drop, List.drop_drop]
      by_cases hm : m < seg.length - n
      · rw [if_pos hm, if_pos (by omega)]
      · rw [if_neg hm, if_neg (by omega)]
        congr 1
        omega
    · rw [dropBytes_cons, if_neg hn, ih htail, dropBytes_cons, if_neg (by omega)]
      congr 1
      omega

/-! ## Reads -/

/-- A read returns the first `min want seg.length` elements of the stream and
    leaves the rest. -/
theorem read_cons {seg : List α} {segs : List (List α)} (h : ∀ x ∈ seg :: segs, x ≠ [])
    (want : ℕ) :
    read want (seg :: segs) =
      (seg.take want, Segments.dropBytes (min want seg.length) (seg :: segs)) := by
  have htail : ∀ x ∈ segs, x ≠ [] := fun x hx => h x (List.mem_cons_of_mem _ hx)
  rw [read, dropBytes_cons]
  by_cases hle : seg.length ≤ want
  · rw [if_pos hle, if_neg (by omega), min_eq_right hle, Nat.sub_self,
      dropBytes_zero htail, List.take_of_length_le hle]
  · rw [if_neg hle, if_pos (by omega), min_eq_left (by omega)]

/-- A read of a non-empty stream returns a non-empty prefix of it, no longer
    than was asked for, and leaves a cut of the rest. -/
theorem Cut.read {segs : List (List α)} {s : List α} (h : Cut segs s) (hs : s ≠ []) {want : ℕ}
    (hw : 0 < want) :
    ∃ n, 0 < n ∧ n ≤ want ∧ n ≤ s.length ∧
      Segments.read want segs = (s.take n, Segments.dropBytes n segs) := by
  obtain ⟨seg, rest, rfl⟩ := h.exists_cons hs
  have hpos := List.length_pos_of_ne_nil h.head_ne_nil
  have hflat : seg ++ rest.flatten = s := by rw [← h.flatten, List.flatten_cons]
  have hlen : seg.length ≤ s.length := by rw [← hflat, List.length_append]; omega
  refine ⟨min want seg.length, by omega, by omega, by omega, ?_⟩
  rw [read_cons h.ne_nil, ← hflat, List.take_append_of_le_length (by omega)]
  congr 1
  rcases le_total want seg.length with hle | hle
  · rw [min_eq_left hle]
  · rw [min_eq_right hle, List.take_of_length_le hle, List.take_length]

/-! ## What arrives behind a position -/

/-- No more than there is. -/
theorem spill_le (want : ℕ) (segs : List (List α)) (pos : ℕ) :
    spill want segs pos ≤ segs.flatten.length - pos := by
  induction segs generalizing pos with
  | nil => simp [spill]
  | cons seg segs ih =>
    rw [spill, List.flatten_cons, List.length_append]
    split_ifs
    · omega
    · have := ih (pos - seg.length)
      omega

/-- `spill` computed one read at a time. -/
theorem spill_cons {seg : List α} {segs : List (List α)} (h : ∀ x ∈ seg :: segs, x ≠ [])
    {want : ℕ} (hw : 0 < want) {pos : ℕ} (hpos : 0 < pos) :
    spill want (seg :: segs) pos =
      if pos ≤ min want seg.length then min want seg.length - pos
      else spill want (Segments.dropBytes (min want seg.length) (seg :: segs))
        (pos - min want seg.length) := by
  have htail : ∀ x ∈ segs, x ≠ [] := fun x hx => h x (List.mem_cons_of_mem _ hx)
  have hround : (pos + want - 1) / want = (pos - 1) / want + 1 := by
    rw [show pos + want - 1 = pos - 1 + want by omega, Nat.add_div_right _ hw]
  rcases le_or_gt seg.length want with hle | hgt
  · have hdrop : Segments.dropBytes seg.length (seg :: segs) = segs := by
      rw [dropBytes_cons, if_neg (lt_irrefl _), Nat.sub_self, dropBytes_zero htail]
    have hq : seg.length ≤ ((pos - 1) / want + 1) * want := by rw [add_mul]; omega
    rw [min_eq_right hle, hdrop, spill, hround, min_eq_left hq]
  · rw [min_eq_left hgt.le, dropBytes_cons, if_pos hgt]
    by_cases hp : pos ≤ want
    · have hq : (pos - 1) / want = 0 := Nat.div_eq_of_lt (by omega)
      rw [if_pos hp, spill, if_pos (by omega), hround, hq]
      omega
    · rw [if_neg hp, spill, spill, List.length_drop, hround,
        show pos - want + want - 1 = pos - 1 by omega, add_mul, one_mul]
      by_cases hin : pos ≤ seg.length
      · rw [if_pos hin, if_pos (by omega)]
        omega
      · rw [if_neg hin, if_neg (by omega)]
        congr 1
        omega

end Segments
