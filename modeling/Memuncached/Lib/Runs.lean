import Mathlib.Data.List.Basic
import Mathlib.Data.List.TakeWhile

/-!
# Maximal runs

The maximal runs of elements with a property in a list, each with its position.

* `runs`: the runs from left to right.
* `runsFrom_run` and `runsFrom_gap`: a run and a gap at the front of a list.
* `mem_runs` and `runs_sorted`: they are exactly the maximal runs, in order.
-/

namespace Runs

variable {α : Type} (p : α → Bool)

/-- `w` stands behind `off` elements of `s`, all of it has the property, and
    neither the element before it nor the one behind it has. -/
structure MaximalRun (s : List α) (off : ℕ) (w : List α) : Prop where
  ne_nil : w ≠ []
  all : ∀ x ∈ w, p x = true
  place : ∃ pre post, s = pre ++ (w ++ post) ∧ off = pre.length ∧
    (∀ x ∈ pre.getLast?, p x = false) ∧ ∀ x ∈ post.head?, p x = false

/-- The runs of `s`, whose first element is the one at position `off`. A run
    starts at an element with the property unless the element before it has it
    too, in which case `start` is false. -/
def runsFrom (off : ℕ) (start : Bool) : List α → List (ℕ × List α)
  | [] => []
  | x :: s =>
    if p x then
      if start then (off, (x :: s).takeWhile p) :: runsFrom (off + 1) false s
      else runsFrom (off + 1) false s
    else runsFrom (off + 1) true s

/-- The maximal runs of `s`. -/
def runs (s : List α) : List (ℕ × List α) := runsFrom p 0 true s

variable {p}

/-! ## Runs and gaps -/

theorem runsFrom_cons (off : ℕ) (start : Bool) (x : α) (s : List α) :
    runsFrom p off start (x :: s) =
      if p x then
        if start then (off, (x :: s).takeWhile p) :: runsFrom p (off + 1) false s
        else runsFrom p (off + 1) false s
      else runsFrom p (off + 1) true s := rfl

theorem takeWhile_run {w s : List α} (hw : ∀ x ∈ w, p x = true) (hs : ∀ x ∈ s.head?, p x = false) :
    (w ++ s).takeWhile p = w := by
  rw [List.takeWhile_append_of_pos hw]
  cases s with
  | nil => simp
  | cons x s =>
    have hx : p x = false := hs x rfl
    simp [hx]

/-- Elements with the property inside a run. -/
theorem runsFrom_inside {w : List α} (hw : ∀ x ∈ w, p x = true) (off : ℕ) (s : List α) :
    runsFrom p off false (w ++ s) = runsFrom p (off + w.length) false s := by
  induction w generalizing off with
  | nil => rfl
  | cons x w ih =>
    rw [List.cons_append, runsFrom_cons, if_pos (hw x List.mem_cons_self), if_neg (by simp),
      ih (fun y hy => hw y (List.mem_cons_of_mem x hy)), List.length_cons]
    congr 1
    omega

/-- A run at the front. -/
theorem runsFrom_run {w s : List α} (hne : w ≠ []) (hw : ∀ x ∈ w, p x = true)
    (hs : ∀ x ∈ s.head?, p x = false) (off : ℕ) :
    runsFrom p off true (w ++ s) = (off, w) :: runsFrom p (off + w.length) false s := by
  have htake := takeWhile_run hw hs
  obtain ⟨x, w, rfl⟩ := List.exists_cons_of_ne_nil hne
  rw [List.cons_append] at htake ⊢
  rw [runsFrom_cons, if_pos (hw x List.mem_cons_self), if_pos rfl, htake,
    runsFrom_inside (fun y hy => hw y (List.mem_cons_of_mem x hy)), List.length_cons]
  congr 2
  omega

/-- A gap at the front. -/
theorem runsFrom_gap {gap : List α} (hne : gap ≠ []) (hgap : ∀ x ∈ gap, p x = false) (off : ℕ)
    (start : Bool) (s : List α) :
    runsFrom p off start (gap ++ s) = runsFrom p (off + gap.length) true s := by
  induction gap generalizing off start with
  | nil => exact absurd rfl hne
  | cons x gap ih =>
    have hx : p x = false := hgap x List.mem_cons_self
    rw [List.cons_append, runsFrom_cons, if_neg (by simp [hx]), List.length_cons]
    by_cases hnil : gap = []
    · subst hnil
      rfl
    · rw [ih hnil fun y hy => hgap y (List.mem_cons_of_mem x hy)]
      congr 1
      omega

/-! ## Membership -/

theorem getLast?_cons_iff (x : α) (pre : List α) :
    (∀ y ∈ (x :: pre).getLast?, p y = false) ↔
      (pre = [] → p x = false) ∧ ∀ y ∈ pre.getLast?, p y = false := by
  cases pre with
  | nil => simp
  | cons z pre => simp [List.getLast?_cons_cons]

/-- A run of `s` behind `pre`, where a run may start at the front of `s` only
    if `start` is true. -/
def RunAt (p : α → Bool) (start : Bool) (s : List α) (k : ℕ) (w : List α) : Prop :=
  ∃ pre post, s = pre ++ (w ++ post) ∧ k = pre.length ∧ (pre = [] → start = true) ∧
    (∀ x ∈ pre.getLast?, p x = false) ∧ ∀ x ∈ post.head?, p x = false

theorem runAt_zero {start : Bool} {s w : List α} :
    RunAt p start s 0 w ↔
      start = true ∧ ∃ post, s = w ++ post ∧ ∀ x ∈ post.head?, p x = false := by
  constructor
  · rintro ⟨pre, post, rfl, hlen, hstart, -, hpost⟩
    have hpre : pre = [] := List.eq_nil_of_length_eq_zero hlen.symm
    subst hpre
    exact ⟨hstart rfl, post, rfl, hpost⟩
  · rintro ⟨hstart, post, rfl, hpost⟩
    exact ⟨[], post, rfl, rfl, fun _ => hstart, by simp, hpost⟩

theorem runAt_succ {start : Bool} {x : α} {s w : List α} {k : ℕ} :
    RunAt p start (x :: s) (k + 1) w ↔ RunAt p (!p x) s k w := by
  constructor
  · rintro ⟨pre, post, hsplit, hlen, -, hpre, hpost⟩
    cases pre with
    | nil => cases hlen
    | cons y pre =>
      rw [List.cons_append, List.cons.injEq] at hsplit
      rw [getLast?_cons_iff, ← hsplit.1] at hpre
      rw [List.length_cons, Nat.add_right_cancel_iff] at hlen
      exact ⟨pre, post, hsplit.2, hlen, fun h => by simp [hpre.1 h], hpre.2, hpost⟩
  · rintro ⟨pre, post, rfl, rfl, hstart, hpre, hpost⟩
    refine ⟨x :: pre, post, rfl, rfl, by simp, ?_, hpost⟩
    exact (getLast?_cons_iff x pre).mpr ⟨fun h => by simpa using hstart h, hpre⟩

/-- A run at the front is the longest stretch with the property. -/
theorem takeWhile_eq_iff {x : α} {s w : List α} (hx : p x = true) :
    w = (x :: s).takeWhile p ↔
      w ≠ [] ∧ (∀ y ∈ w, p y = true) ∧ ∃ post, x :: s = w ++ post ∧ ∀ y ∈ post.head?, p y = false := by
  constructor
  · rintro rfl
    refine ⟨by simp [hx], fun y hy => List.mem_takeWhile_imp hy, (x :: s).dropWhile p,
      List.takeWhile_append_dropWhile.symm, fun y hy => ?_⟩
    have hhead := List.head?_dropWhile_not p (x :: s)
    rw [Option.mem_def.mp hy] at hhead
    simpa using hhead
  · rintro ⟨-, hw, post, hsplit, hpost⟩
    rw [hsplit, takeWhile_run hw hpost]

theorem exists_runAt_cons {start : Bool} {x : α} {s w : List α} {off i : ℕ} :
    (∃ k, i = off + k ∧ RunAt p start (x :: s) k w) ↔
      (i = off ∧ RunAt p start (x :: s) 0 w) ∨
        ∃ k, i = off + 1 + k ∧ RunAt p (!p x) s k w := by
  constructor
  · rintro ⟨k, rfl, hrun⟩
    cases k with
    | zero => exact Or.inl ⟨rfl, hrun⟩
    | succ k => exact Or.inr ⟨k, by omega, runAt_succ.mp hrun⟩
  · rintro (⟨rfl, hrun⟩ | ⟨k, rfl, hrun⟩)
    · exact ⟨0, rfl, hrun⟩
    · exact ⟨k + 1, by omega, runAt_succ.mpr hrun⟩

theorem mem_runsFrom {s w : List α} {off i : ℕ} {start : Bool} :
    (i, w) ∈ runsFrom p off start s ↔
      w ≠ [] ∧ (∀ x ∈ w, p x = true) ∧ ∃ k, i = off + k ∧ RunAt p start s k w := by
  induction s generalizing off start with
  | nil =>
    refine iff_of_false List.not_mem_nil ?_
    rintro ⟨hne, -, k, -, pre, post, hsplit, -⟩
    have hnil := List.append_eq_nil_iff.mp hsplit.symm
    exact hne (List.append_eq_nil_iff.mp hnil.2).1
  | cons x s ih =>
    rw [exists_runAt_cons, runsFrom_cons]
    cases hx : p x with
    | false =>
      -- no run starts at `x`
      have hzero : w ≠ [] → (∀ y ∈ w, p y = true) → ¬ RunAt p start (x :: s) 0 w := by
        intro hne hw hrun
        obtain ⟨-, post, hsplit, -⟩ := runAt_zero.mp hrun
        obtain ⟨y, w, rfl⟩ := List.exists_cons_of_ne_nil hne
        rw [List.cons_append, List.cons.injEq] at hsplit
        have hy := hw y List.mem_cons_self
        rw [← hsplit.1, hx] at hy
        cases hy
      rw [if_neg (by simp), ih]
      refine and_congr_right fun hne => and_congr_right fun hw => ?_
      rw [or_iff_right fun h => hzero hne hw h.2]
      rfl
    | true =>
      rw [if_pos rfl]
      cases start with
      | false =>
        have hzero : ¬ RunAt p false (x :: s) 0 w := fun hrun => by
          cases (runAt_zero.mp hrun).1
        rw [if_neg (by simp), ih, or_iff_right fun h => hzero h.2]
        rfl
      | true =>
        rw [if_pos rfl, List.mem_cons, Prod.mk.injEq, ih, takeWhile_eq_iff hx, runAt_zero]
        constructor
        · rintro (⟨hi, hne, hw, hpost⟩ | ⟨hne, hw, hrun⟩)
          · exact ⟨hne, hw, Or.inl ⟨hi, rfl, hpost⟩⟩
          · exact ⟨hne, hw, Or.inr hrun⟩
        · rintro ⟨hne, hw, ⟨hi, -, hpost⟩ | hrun⟩
          · exact Or.inl ⟨hi, hne, hw, hpost⟩
          · exact Or.inr ⟨hne, hw, hrun⟩

/-- `runs` has exactly the maximal runs. -/
theorem mem_runs {s w : List α} {off : ℕ} : (off, w) ∈ runs p s ↔ MaximalRun p s off w := by
  rw [runs, mem_runsFrom]
  constructor
  · rintro ⟨hne, hw, k, hk, pre, post, hsplit, hlen, -, hpre, hpost⟩
    exact ⟨hne, hw, pre, post, hsplit, by omega, hpre, hpost⟩
  · rintro ⟨hne, hw, pre, post, hsplit, hlen, hpre, hpost⟩
    exact ⟨hne, hw, off, by omega, pre, post, hsplit, hlen, fun _ => rfl, hpre, hpost⟩

theorem runsFrom_sorted (s : List α) : ∀ off start,
    (runsFrom p off start s).Pairwise (fun a b => a.1 < b.1) ∧
      ∀ a ∈ runsFrom p off start s, off ≤ a.1 := by
  induction s with
  | nil => exact fun _ _ => ⟨List.Pairwise.nil, fun a ha => absurd ha List.not_mem_nil⟩
  | cons x s ih =>
    intro off start
    rw [runsFrom_cons]
    have htail : ∀ start', ∀ a ∈ runsFrom p (off + 1) start' s, off + 1 ≤ a.1 :=
      fun start' => (ih (off + 1) start').2
    split_ifs
    · refine ⟨List.pairwise_cons.mpr ⟨fun a ha => ?_, (ih (off + 1) false).1⟩, fun a ha => ?_⟩
      · exact htail false a ha
      · rcases List.mem_cons.mp ha with rfl | ha
        · exact le_rfl
        · exact (Nat.le_succ off).trans (htail false a ha)
    · exact ⟨(ih (off + 1) false).1, fun a ha => (Nat.le_succ off).trans (htail false a ha)⟩
    · exact ⟨(ih (off + 1) true).1, fun a ha => (Nat.le_succ off).trans (htail true a ha)⟩

/-- `runs` lists them from left to right. -/
theorem runs_sorted (s : List α) : (runs p s).Pairwise fun a b => a.1 < b.1 :=
  (runsFrom_sorted s 0 true).1

end Runs
