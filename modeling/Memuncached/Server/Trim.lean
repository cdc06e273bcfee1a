import Memuncached.Server.Terminated

/-!
# The trim of a line

The loop of `handle_connection` that zeroes the line breaks at the end of a
command goes down from `int i = command_len` as long as it meets line breaks; it
has no lower bound. Here the conversion to `int` is kept, which the handler does
without.

* `trimAccesses_inside_iff`: the accesses of the loop stay inside the block
  exactly if `trimNewlines` has a result.
* `trimsInside_iff`: it stays in the line and trims it exactly if the line has
  a byte other than a line break, as far as its length is an `int`; in a longer
  line the loop starts elsewhere and is harmless where it finds nothing to do.
-/

namespace Memuncached.Server

/-! ## The loop -/

/-- An access to `command[index]`. -/
inductive Access where
  | read (index : ℤ)
  | write (index : ℤ)
  deriving DecidableEq, Repr

def Access.index : Access → ℤ
  | .read index => index
  | .write index => index

/-- The accesses of the loop (connection.c, lines 90-92) from index `i` down; it
    has no behaviour behind a read before the block. -/
def trimAccesses (command : List Byte) : ℕ → List Access
  | 0 => [.read (-1)]
  | i + 1 =>
    .read i ::
      if isNewline (command.getD i 0) then .write i :: trimAccesses (command.set i 0) i else []

/-- The loop from `int i` on: its accesses and the block it leaves. -/
def trimLoop (command : List Byte) (i : ℤ) : List Access × Option (List Byte) :=
  if 0 < i then (trimAccesses command i.toNat, trimNewlines command i.toNat)
  else ([.read (i - 1)], none)

/-- Lines 88-92: `command_len` is a `size_t` and `i` an `int`. -/
def ReadLoop.trim (r : ReadLoop) : List Access × Option (List Byte) :=
  trimLoop r.command (toInt (r.command.length - r.commandFreeLen).toNat)

/-! ## Specification -/

/-- The loop stays in the line, which it leaves with the line breaks at its end
    zeroed. -/
structure TrimsInside (r : ReadLoop) (received : List Byte) : Prop where
  inside : ∀ a ∈ r.trim.1, 0 ≤ a.index ∧ a.index < received.length
  result : r.trim.2 =
    some (received.rdropWhile isNewline ++
      List.replicate (received.rtakeWhile isNewline).length 0 ++ r.command.drop received.length)

/-- The last byte is there and not a line break. -/
def EndsOther (w : List Byte) : Prop := ∃ b ∈ w.getLast?, isNewline b = false

/-- A line whose length is an `int` has a byte other than a line break. In a
    longer one the truncated length is positive, and neither before it nor at
    the end of the line is there a line break. -/
def TrimSafe (received : List Byte) : Prop :=
  if (received.length : ℤ) ≤ intMax then ∃ b ∈ received, isNewline b = false
  else
    0 < toInt received.length ∧ EndsOther (received.take (toInt received.length).toNat) ∧
      EndsOther received

/-! ## The accesses -/

theorem trimAccesses_lt (i : ℕ) : ∀ command, ∀ a ∈ trimAccesses command i, a.index < i := by
  induction i with
  | zero =>
    intro command a ha
    rw [List.mem_singleton.mp ha]
    show (-1 : ℤ) < 0
    omega
  | succ i ih =>
    intro command a ha
    rw [trimAccesses] at ha
    have hi : (i : ℤ) < (i + 1 : ℕ) := by omega
    rcases List.mem_cons.mp ha with rfl | ha
    · exact hi
    · split_ifs at ha
      · rcases List.mem_cons.mp ha with rfl | ha
        · exact hi
        · exact (ih _ a ha).trans hi
      · exact absurd ha List.not_mem_nil

theorem trimAccesses_inside_iff (i : ℕ) : ∀ command,
    (∀ a ∈ trimAccesses command i, 0 ≤ a.index) ↔ (trimNewlines command i).isSome = true := by
  induction i with
  | zero =>
    intro command
    refine iff_of_false (fun h => ?_) (by simp [trimNewlines])
    have hneg : (0 : ℤ) ≤ -1 := h (.read (-1)) List.mem_cons_self
    omega
  | succ i ih =>
    intro command
    have hread : 0 ≤ (Access.read i).index := Int.natCast_nonneg i
    have hwrite : 0 ≤ (Access.write i).index := Int.natCast_nonneg i
    rw [trimAccesses, trimNewlines, List.forall_mem_cons, and_iff_right hread]
    split_ifs
    · rw [List.forall_mem_cons, and_iff_right hwrite]
      exact ih _
    · exact iff_of_true (fun a ha => absurd ha List.not_mem_nil) rfl

/-! ## What the loop leaves -/

theorem trimmed_eq (w : List Byte) :
    trimmed w = w.rdropWhile isNewline ++
      List.replicate (w.rtakeWhile isNewline).length 0 := by
  induction w using List.reverseRecOn with
  | nil => rfl
  | append_singleton w b ih =>
    by_cases hb : isNewline b = true
    · rw [trimmed_concat_newline w hb, ih, List.rdropWhile_concat_pos _ _ _ hb,
        List.rtakeWhile_concat_pos _ _ _ hb, List.length_append, List.append_assoc,
        List.length_singleton, List.replicate_succ']
    · rw [List.rdropWhile_concat_neg _ _ _ hb, List.rtakeWhile_concat_neg _ _ _ hb]
      rw [Bool.not_eq_true] at hb
      rw [trimmed_concat_of_not w hb, List.length_nil, List.replicate_zero, List.append_nil]

/-- The loop from the end of `front` down. -/
theorem trimNewlines_front {front : List Byte} (h : ∃ b ∈ front, isNewline b = false)
    (rest : List Byte) :
    trimNewlines (front ++ rest) front.length = some (trimmed front ++ rest) := by
  obtain ⟨b, hmem, hb⟩ := h
  obtain ⟨pre, post, rfl⟩ := List.append_of_mem hmem
  have htrim := @trimNewlines_append pre post rest b hb
  have hkeep : trimmed (pre ++ b :: post) = pre ++ b :: trimmed post := by
    rw [trimmed_append ⟨b, List.mem_cons_self, hb⟩, trimmed_cons ⟨b, List.mem_cons_self, hb⟩]
  have hlen : (pre ++ b :: post).length = pre.length + 1 + post.length := by
    rw [List.length_append, List.length_cons]
    omega
  rw [hlen, hkeep, List.append_assoc, List.cons_append, htrim, List.append_assoc, List.cons_append]

theorem endsOther_concat (w : List Byte) (b : Byte) :
    EndsOther (w ++ [b]) ↔ isNewline b = false := by
  rw [EndsOther, List.getLast?_concat]
  simp

/-- A line break at the end is overwritten. -/
theorem ne_trimmed_newline (w w' : List Byte) {b : Byte} (hb : isNewline b = true) :
    w' ++ [b] ≠ trimmed (w ++ [b]) := by
  rw [trimmed_concat_newline w hb]
  intro h
  have hzero := (List.append_inj' h rfl).2
  rw [List.singleton_inj] at hzero
  rw [hzero] at hb
  exact absurd hb (by decide)

/-- There is nothing to trim behind another byte. -/
theorem trimmed_eq_self_iff {w : List Byte} (hne : w ≠ []) : w = trimmed w ↔ EndsOther w := by
  obtain ⟨front, b, rfl⟩ := (List.eq_nil_or_concat' w).resolve_left hne
  rw [endsOther_concat]
  cases hb : isNewline b with
  | false => exact iff_of_true (trimmed_concat_of_not front hb).symm rfl
  | true => exact iff_of_false (ne_trimmed_newline front front hb) (by simp)

/-- Trimming a proper prefix instead of the line. -/
theorem trimmed_prefix_iff {front back : List Byte} (hfront : front ≠ []) (hback : back ≠ []) :
    trimmed front ++ back = trimmed (front ++ back) ↔
      EndsOther front ∧ EndsOther (front ++ back) := by
  obtain ⟨back, x, rfl⟩ := (List.eq_nil_or_concat' back).resolve_left hback
  rw [← List.append_assoc, ← List.append_assoc, endsOther_concat]
  cases hx : isNewline x with
  | false =>
    rw [trimmed_concat_of_not _ hx, ← trimmed_eq_self_iff hfront, and_iff_left rfl]
    constructor
    · exact fun h => (List.append_cancel_right (List.append_cancel_right h)).symm
    · exact fun h => by rw [← h]
  | true => exact iff_of_false (ne_trimmed_newline _ _ hx) (by simp)

/-- The loop from the end of a proper prefix of the line down. -/
theorem trimNewlines_prefix_iff {front back : List Byte} (hfront : front ≠ []) (hback : back ≠ [])
    (tail : List Byte) :
    trimNewlines (front ++ back ++ tail) front.length = some (trimmed (front ++ back) ++ tail) ↔
      EndsOther front ∧ EndsOther (front ++ back) := by
  rw [List.append_assoc]
  by_cases hother : ∃ b ∈ front, isNewline b = false
  · rw [trimNewlines_front hother, Option.some.injEq, ← List.append_assoc,
      List.append_cancel_right_eq]
    exact trimmed_prefix_iff hfront hback
  · push Not at hother
    refine iff_of_false (fun hresult => ?_) ?_
    · rw [trimNewlines_off (fun b hb => by simpa using hother b hb)] at hresult
      cases hresult
    · rintro ⟨⟨b, hb, hb'⟩, -⟩
      exact hother b (List.mem_of_getLast? hb) hb'

/-! ## When the line is trimmed -/

/-- With a result the accesses are before the index the loop started from. -/
theorem trimLoop_inside {command block : List Byte} {i : ℤ}
    (h : (trimLoop command i).2 = some block) :
    ∀ a ∈ (trimLoop command i).1, 0 ≤ a.index ∧ a.index < i := by
  unfold trimLoop at h ⊢
  split_ifs at h ⊢ with hpos
  intro a ha
  constructor
  · refine (trimAccesses_inside_iff _ command).mpr ?_ a ha
    exact Option.isSome_iff_exists.mpr ⟨block, h⟩
  · have hlt := trimAccesses_lt _ _ a ha
    omega

theorem trimLoop_eq_some_iff {command block : List Byte} {i : ℤ} :
    (trimLoop command i).2 = some block ↔
      0 < i ∧ trimNewlines command i.toNat = some block := by
  unfold trimLoop
  split_ifs with hpos
  · exact (and_iff_right hpos).symm
  · exact iff_of_false (by simp) fun h => hpos h.1

/-- The conversion to `int` makes no length greater, and one above `INT_MAX`
    smaller. -/
theorem toInt_length (n : ℕ) :
    (toInt n : ℤ) ≤ intMax ∧ ((n : ℤ) ≤ intMax → toInt n = n) := by
  refine ⟨?_, fun h => toInt_of_range (by omega) h⟩
  exact Int.bmod_le (by norm_num)

theorem trimsInside_iff_result {r : ReadLoop} {received tail : List Byte}
    (hcommand : r.command = received ++ tail) (hfree : r.commandFreeLen = tail.length) :
    TrimsInside r received ↔
      (trimLoop (received ++ tail) (toInt received.length)).2 = some (trimmed received ++ tail) := by
  have hlen : ((r.command.length : ℤ) - r.commandFreeLen).toNat = received.length := by
    rw [hcommand, hfree, List.length_append]
    omega
  have hdrop : r.command.drop received.length = tail := by rw [hcommand, List.drop_left]
  have htrim : r.trim = trimLoop (received ++ tail) (toInt received.length) := by
    rw [ReadLoop.trim, hlen, hcommand]
  obtain ⟨hmax, hshort⟩ := toInt_length received.length
  constructor
  · rintro ⟨-, hresult⟩
    rw [htrim, hdrop, ← trimmed_eq] at hresult
    exact hresult
  · intro hresult
    refine ⟨fun a ha => ?_, ?_⟩
    · rw [htrim] at ha
      obtain ⟨hnonneg, hlt⟩ := trimLoop_inside hresult a ha
      by_cases hle : (received.length : ℤ) ≤ intMax
      · rw [hshort hle] at hlt
        exact ⟨hnonneg, hlt⟩
      · exact ⟨hnonneg, by omega⟩
    · rw [htrim, hdrop, ← trimmed_eq]
      exact hresult

theorem trimsInside_iff {r : ReadLoop} {received : List Byte} (h : r.Holds received)
    (hne : received ≠ []) : TrimsInside r received ↔ TrimSafe received := by
  obtain ⟨⟨tail, hcommand, hfree⟩, -, -⟩ := h
  obtain ⟨hmax, hshort⟩ := toInt_length received.length
  rw [trimsInside_iff_result hcommand hfree, trimLoop_eq_some_iff, TrimSafe]
  by_cases hle : (received.length : ℤ) ≤ intMax
  · have hpos : (0 : ℤ) < received.length := by
      have hlen := List.length_pos_of_ne_nil hne
      omega
    rw [if_pos hle, hshort hle, and_iff_right hpos, Int.toNat_natCast]
    constructor
    · intro hresult
      by_contra hall
      push Not at hall
      rw [trimNewlines_off (fun b hb => by simpa using hall b hb) tail] at hresult
      cases hresult
    · exact fun hother => trimNewlines_front hother tail
  · -- the loop starts before the end of the line
    rw [if_neg hle]
    generalize toInt received.length = i at hmax
    refine and_congr_right fun hpos => ?_
    have hlen : (received.take i.toNat).length = i.toNat := by
      rw [List.length_take, min_eq_left (by omega)]
    have hfront : received.take i.toNat ≠ [] := by
      apply List.ne_nil_of_length_pos
      omega
    have hback : received.drop i.toNat ≠ [] := by
      apply List.ne_nil_of_length_pos
      rw [List.length_drop]
      omega
    have hprefix := trimNewlines_prefix_iff hfront hback tail
    rwa [List.take_append_drop, hlen] at hprefix

/-- The line of a request. -/
theorem trimsInside_get :
    TrimsInside (ReadLoop.small (ascii "GET a\r\n")) (ascii "GET a\r\n") := by
  refine (trimsInside_iff (holds_small (by decide)) (by decide)).mpr ?_
  rw [TrimSafe, if_pos (by decide)]
  exact ⟨71, by decide, rfl⟩

/-- The line of a user who has pressed Enter. -/
theorem not_trimsInside_enter :
    ¬ ∀ (r : ReadLoop) (received : List Byte), r.Holds received → received ≠ [] →
      TrimsInside r received := by
  intro h
  have hread := (h (ReadLoop.small crlf) crlf (holds_small (by decide)) (by decide)).inside
    (.read (-1)) (by decide)
  exact absurd hread.1 (by decide)

end Memuncached.Server
