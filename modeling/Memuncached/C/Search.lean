import Memuncached.C.Bytes

/-!
# Text search

`sstrstr` of `utils.h` is given an area that need not be terminated and keeps
within its length by a test in front of every comparison.

* `sstrstr_find` and `sstrstr_none`: a text whose first byte does not occur
  before it is found where it stands; one whose first byte does not occur at
  all is not found.
* `sstrstrReads_lt`: the search reads bytes of the first `length` only.
-/

namespace Memuncached

/-! ## Model -/

/-- The loop of `sstrstr` at index `i`; the first argument counts the
    iterations left. -/
def sstrstrLoop (haystack needle : List Byte) (length : ℕ) : ℕ → ℕ → Option ℕ
  | 0, _ => none
  | left + 1, i =>
    if i + needle.length > length then none
    else if (haystack.drop i).take needle.length == needle then some i
    else sstrstrLoop haystack needle length left (i + 1)

/-- `sstrstr` (utils.h, lines 84-97): the offset of the first `needle` within
    the first `length` bytes of `haystack`. -/
def sstrstr (haystack needle : List Byte) (length : ℕ) : Option ℕ :=
  sstrstrLoop haystack needle length length 0

/-! ## What is found -/

/-- From an index before the text on, no comparison succeeds until the one at
    its first byte. -/
theorem sstrstrLoop_find {pre needle : List Byte} {b : Byte} (hb : b ∉ pre) (rest : List Byte)
    {length : ℕ} (hlen : pre.length + (b :: needle).length ≤ length) :
    ∀ left i, i + left = length → i ≤ pre.length →
      sstrstrLoop (pre ++ (b :: needle ++ rest)) (b :: needle) length left i =
        some pre.length := by
  intro left
  induction left with
  | zero =>
    intro i hi hle
    rw [List.length_cons] at hlen
    omega
  | succ left ih =>
    intro i hi hle
    rw [sstrstrLoop, if_neg (by omega)]
    rcases Nat.lt_or_eq_of_le hle with hlt | rfl
    · have hdrop : (pre ++ (b :: needle ++ rest)).drop i =
          pre[i] :: (pre.drop (i + 1) ++ (b :: needle ++ rest)) := by
        rw [List.drop_append_of_le_length hle, List.drop_eq_getElem_cons hlt, List.cons_append]
      have hne : pre[i] ≠ b := fun h => hb (h ▸ List.getElem_mem hlt)
      have hdiffer : ((pre ++ (b :: needle ++ rest)).drop i).take (b :: needle).length ≠
          b :: needle := by
        rw [hdrop, List.length_cons, List.take_succ_cons]
        exact fun h => hne (List.cons.inj h).1
      rw [if_neg (by simpa using hdiffer)]
      exact ih (i + 1) (by omega) (by omega)
    · rw [List.drop_left, List.take_left, if_pos (beq_self_eq_true _)]

/-- `sstrstr` finds a text behind bytes other than its first. -/
theorem sstrstr_find {pre needle rest : List Byte} {b : Byte} (hb : b ∉ pre) {length : ℕ}
    (hlen : pre.length + (b :: needle).length ≤ length) :
    sstrstr (pre ++ (b :: needle ++ rest)) (b :: needle) length = some pre.length :=
  sstrstrLoop_find hb rest hlen length 0 (Nat.zero_add length) (Nat.zero_le _)

/-- Where the first byte of a text does not occur no comparison succeeds. -/
theorem sstrstrLoop_none {haystack : List Byte} {b : Byte} (hb : b ∉ haystack)
    (needle : List Byte) (length : ℕ) :
    ∀ left i, sstrstrLoop haystack (b :: needle) length left i = none := by
  intro left
  induction left with
  | zero => exact fun _ => rfl
  | succ left ih =>
    intro i
    have hdiffer : (haystack.drop i).take (b :: needle).length ≠ b :: needle := by
      intro h
      have hmem : b ∈ (haystack.drop i).take (b :: needle).length := by
        rw [h]
        exact List.mem_cons_self
      exact hb (List.mem_of_mem_drop (List.mem_of_mem_take hmem))
    rw [sstrstrLoop]
    split_ifs with hlong hmatch
    · rfl
    · exact absurd (beq_iff_eq.mp hmatch) hdiffer
    · exact ih (i + 1)

theorem sstrstr_none {haystack : List Byte} {b : Byte} (hb : b ∉ haystack) (needle : List Byte)
    (length : ℕ) : sstrstr haystack (b :: needle) length = none :=
  sstrstrLoop_none hb needle length length 0

/-- A chunk without a newline. -/
theorem sstrstr_newline_none {buffer : List Byte} (h : (10 : Byte) ∉ buffer) :
    sstrstr buffer [10] buffer.length = none :=
  sstrstr_none h [] _

/-- A chunk whose first newline is behind `pre`. -/
theorem sstrstr_newline_some {pre rest : List Byte} (h : (10 : Byte) ∉ pre) :
    sstrstr (pre ++ 10 :: rest) [10] (pre ++ 10 :: rest).length = some pre.length := by
  have hlen : pre.length + [(10 : Byte)].length ≤ (pre ++ 10 :: rest).length := by
    simp only [List.length_append, List.length_cons, List.length_nil]
    omega
  exact sstrstr_find h hlen

/-! ## The bytes read -/

/-- How many bytes of its first argument `strncmp(haystack, needle, n)` reads,
    `n` being the length of `needle`: up to a difference or the end of either
    string. -/
def strncmpReads : (haystack needle : List Byte) → ℕ
  | _, [] => 0
  | [], _ :: _ => 1
  | h :: haystack, b :: needle => if h = b ∧ h ≠ 0 then strncmpReads haystack needle + 1 else 1

/-- The indices of `haystack` that the loop of `sstrstr` reads from index `i`
    on, in the order of `sstrstrLoop`. -/
def sstrstrReadsLoop (haystack needle : List Byte) (length : ℕ) : ℕ → ℕ → List ℕ
  | 0, _ => []
  | left + 1, i =>
    if i + needle.length > length then []
    else
      List.range' i (strncmpReads (haystack.drop i) needle) ++
        if (haystack.drop i).take needle.length == needle then []
        else sstrstrReadsLoop haystack needle length left (i + 1)

/-- The indices of `haystack` that `sstrstr` reads. -/
def sstrstrReads (haystack needle : List Byte) (length : ℕ) : List ℕ :=
  sstrstrReadsLoop haystack needle length length 0

theorem strncmpReads_le (haystack needle : List Byte) :
    strncmpReads haystack needle ≤ needle.length := by
  induction needle generalizing haystack with
  | nil =>
    rw [strncmpReads]
    exact le_rfl
  | cons b needle ih =>
    cases haystack with
    | nil =>
      rw [strncmpReads, List.length_cons]
      omega
    | cons h haystack =>
      have htail := ih haystack
      rw [strncmpReads, List.length_cons]
      split_ifs <;> omega

/-- The test in front of the comparison keeps every read below `length`. -/
theorem sstrstrReadsLoop_lt (haystack needle : List Byte) (length : ℕ) :
    ∀ left i, ∀ j ∈ sstrstrReadsLoop haystack needle length left i, j < length := by
  intro left
  induction left with
  | zero =>
    intro i j hj
    exact absurd hj List.not_mem_nil
  | succ left ih =>
    intro i j hj
    rw [sstrstrReadsLoop] at hj
    split_ifs at hj with hlong hmatch
    · exact absurd hj List.not_mem_nil
    all_goals
      have hle := strncmpReads_le (haystack.drop i) needle
      rcases List.mem_append.mp hj with hj | hj
      · rw [List.mem_range'_1] at hj
        omega
    · exact absurd hj List.not_mem_nil
    · exact ih (i + 1) j hj

theorem sstrstrReads_lt {haystack needle : List Byte} {length j : ℕ}
    (h : j ∈ sstrstrReads haystack needle length) : j < length :=
  sstrstrReadsLoop_lt haystack needle length length 0 j h

end Memuncached
