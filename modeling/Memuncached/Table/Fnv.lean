import Memuncached.Table.HashTable

/-!
# The hash function

`fnv1a` of `fnv.c` against the 64-bit FNV-1a hash. The loop mixes a plain
`char` into the hash, and a negative one is sign extended: it flips the upper
56 bits as well.

A hash is read as its low byte and the odd number `centre` of its upper 56 bits.
Flipping the bits negates `centre`, and multiplying by the prime is affine in it,
with a constant that depends on the low byte only; the low byte is never wrong.

* `centre_foldl`: how far the two hashes are apart behind any string.
* `fnv1a_correct_iff`: they agree exactly when the sign extensions cancel, as
  they do when there are none, and never when their number is odd.
-/

namespace Memuncached

/-! ## Specification -/

/-- The 64-bit FNV-1a hash. -/
def fnv1aReference (string : List Byte) : ℕ :=
  string.foldl (fun h b => ((h ^^^ b.toNat) * 1099511628211) % 2 ^ 64) 14695981039346656037

/-- A byte that is a negative `char`. -/
def isNegative (b : Byte) : Bool := 128 ≤ b

/-- How many negative `char`s a string has. -/
def negatives (string : List Byte) : ℕ := string.countP isNegative

/-- A step of the hash on eight bits: `0xb3` is the low byte of the prime. -/
def lowStep (low b : Byte) : Byte := (low ^^^ b) * 0xb3

/-- How far a low byte is from the middle of its range once it is multiplied;
    0 for 128 and for no other. -/
def offCentre (low : Byte) : ℤ := 2 * (low.toNat * 1099511628211 / 2 ^ 8 : ℕ) + 1 - 1099511628211

/-- What the sign extensions add up to: a step counts when the number of
    negative `char`s behind it is odd, with the power of the prime that it is
    multiplied by. `low` is the low byte of the hash of what has been read. -/
def signShift (low : Byte) : List Byte → ℤ
  | [] => 0
  | b :: string =>
    (if Odd (negatives string) then offCentre (low ^^^ b) * 1099511628211 ^ string.length else 0) +
      signShift (lowStep low b) string

/-- The sign extensions of a string undo each other; `0x25` is the low byte of
    the offset basis. -/
def SignsCancel (string : List Byte) : Prop :=
  Even (negatives string) ∧ (2 ^ 56 : ℤ) ∣ signShift 0x25 string

instance (string : List Byte) : Decidable (SignsCancel string) :=
  inferInstanceAs (Decidable (_ ∧ _))

/-! ## One step -/

/-- The body of the loop of `fnv1a`. -/
def mix (hash : UInt64) (c : Byte) : UInt64 :=
  (hash ^^^ c.toInt8.toInt64.toUInt64) * fnvPrime64

/-- The same with the byte as an unsigned number. -/
def mixUnsigned (hash : UInt64) (b : Byte) : UInt64 := (hash ^^^ b.toUInt64) * fnvPrime64

theorem fnv1a_eq (string : List Byte) : fnv1a string = string.foldl mix fnvOffset64 := rfl

theorem fnv1aReference_eq (string : List Byte) :
    fnv1aReference string = (string.foldl mixUnsigned fnvOffset64).toNat := by
  have hfold : ∀ h : UInt64,
      string.foldl (fun h b => ((h ^^^ b.toNat) * 1099511628211) % 2 ^ 64) h.toNat =
        (string.foldl mixUnsigned h).toNat := by
    induction string with
    | nil => exact fun h => rfl
    | cons b string ih =>
      intro h
      have hstep : ((h.toNat ^^^ b.toNat) * 1099511628211) % 2 ^ 64 = (mixUnsigned h b).toNat := by
        rw [mixUnsigned, UInt64.toNat_mul, UInt64.toNat_xor, UInt8.toNat_toUInt64]
        rfl
      rw [List.foldl_cons, List.foldl_cons, hstep]
      exact ih (mixUnsigned h b)
  exact hfold fnvOffset64

/-- The odd number in the middle of the hashes with the same upper 56 bits, in
    units of 128. -/
def centre (h : UInt64) : ℤ := 2 * (h.toNat / 2 ^ 8 : ℕ) + 1

/-- The sign of a factor -1 for every negative `char`. -/
def signOf (string : List Byte) : ℤ := (-1) ^ negatives string

set_option maxRecDepth 4000 in
theorem signExtend_low (c : Byte) : c.toInt8.toInt64.toUInt64.toUInt8 = c := by
  revert c
  decide

set_option maxRecDepth 4000 in
theorem signExtend_positive {c : Byte} (h : isNegative c = false) :
    c.toInt8.toInt64.toUInt64 = c.toUInt64 := by
  revert c
  decide

set_option maxRecDepth 4000 in
theorem signExtend_negative {c : Byte} (h : isNegative c = true) :
    c.toInt8.toInt64.toUInt64.toNat / 2 ^ 8 = 2 ^ 56 - 1 := by
  revert c
  decide

theorem xor_ones {q : ℕ} (h : q < 2 ^ 56) : q ^^^ (2 ^ 56 - 1) = 2 ^ 56 - 1 - q := by
  have hnot := congrArg BitVec.toNat (@BitVec.xor_allOnes 56 (BitVec.ofNat 56 q))
  rw [BitVec.toNat_xor, BitVec.toNat_not, BitVec.toNat_allOnes, BitVec.toNat_ofNat,
    Nat.mod_eq_of_lt h] at hnot
  exact hnot

/-- Mixing in an unsigned byte leaves the upper bits as they are. -/
theorem centre_xor_unsigned (h : UInt64) (b : Byte) : centre (h ^^^ b.toUInt64) = centre h := by
  have hzero : b.toUInt64.toNat / 2 ^ 8 = 0 := by
    rw [UInt8.toNat_toUInt64]
    exact Nat.div_eq_of_lt (UInt8.toNat_lt b)
  rw [centre, UInt64.toNat_xor, Nat.xor_div_two_pow, hzero, Nat.xor_zero, centre]

/-- Mixing in a `char` negates the centre if the `char` is negative. -/
theorem centre_xor_char (h : UInt64) (c : Byte) :
    centre (h ^^^ c.toInt8.toInt64.toUInt64) ≡ signOf [c] * centre h [ZMOD 2 ^ 57] := by
  by_cases hneg : isNegative c = true
  · have hlt : h.toNat / 2 ^ 8 < 2 ^ 56 := by
      have hh := UInt64.toNat_lt h
      omega
    have hsign : signOf [c] = -1 := by simp [signOf, negatives, hneg]
    rw [centre, UInt64.toNat_xor, Nat.xor_div_two_pow, signExtend_negative hneg, xor_ones hlt, hsign,
      centre]
    unfold Int.ModEq
    omega
  · rw [Bool.not_eq_true] at hneg
    have hsign : signOf [c] = 1 := by simp [signOf, negatives, hneg]
    rw [signExtend_positive hneg, centre_xor_unsigned, hsign, one_mul]

/-- Multiplying by the prime. -/
theorem centre_mul (x : UInt64) :
    centre (x * fnvPrime64) ≡ 1099511628211 * centre x + offCentre x.toUInt8 [ZMOD 2 ^ 57] := by
  have hsplit := Nat.div_add_mod x.toNat (2 ^ 8)
  have hquot : (x * fnvPrime64).toNat / 2 ^ 8 =
      (x.toNat / 2 ^ 8 * 1099511628211 + x.toNat % 2 ^ 8 * 1099511628211 / 2 ^ 8) % 2 ^ 56 := by
    have hprime : fnvPrime64.toNat = 1099511628211 := rfl
    have hpow : 2 ^ 64 = 2 ^ 8 * 2 ^ 56 := rfl
    rw [UInt64.toNat_mul, hprime, hpow, Nat.mod_mul_right_div_self,
      ← Nat.mul_add_div (by omega : 2 ^ 8 > 0)]
    congr 2
    conv_lhs => rw [← hsplit]
    ring
  rw [centre, hquot, centre, offCentre, UInt64.toNat_toUInt8]
  unfold Int.ModEq
  omega

theorem low_mix (h : UInt64) (c : Byte) : (mix h c).toUInt8 = lowStep h.toUInt8 c := by
  rw [mix, UInt64.toUInt8_mul, UInt64.toUInt8_xor, signExtend_low]
  rfl

theorem low_mixUnsigned (h : UInt64) (b : Byte) :
    (mixUnsigned h b).toUInt8 = lowStep h.toUInt8 b := by
  rw [mixUnsigned, UInt64.toUInt8_mul, UInt64.toUInt8_xor, UInt8.toUInt8_toUInt64]
  rfl

theorem centre_mix (h : UInt64) (c : Byte) :
    centre (mix h c) ≡
      1099511628211 * (signOf [c] * centre h) + offCentre (h.toUInt8 ^^^ c) [ZMOD 2 ^ 57] := by
  have hmul := centre_mul (h ^^^ c.toInt8.toInt64.toUInt64)
  rw [UInt64.toUInt8_xor, signExtend_low] at hmul
  exact hmul.trans (((centre_xor_char h c).mul_left _).add_right _)

theorem centre_mixUnsigned (h : UInt64) (b : Byte) :
    centre (mixUnsigned h b) ≡
      1099511628211 * centre h + offCentre (h.toUInt8 ^^^ b) [ZMOD 2 ^ 57] := by
  have hmul := centre_mul (h ^^^ b.toUInt64)
  rw [UInt64.toUInt8_xor, UInt8.toUInt8_toUInt64, centre_xor_unsigned] at hmul
  exact hmul

/-! ## A whole string -/

theorem signOf_cons (b : Byte) (string : List Byte) :
    signOf (b :: string) = signOf [b] * signOf string := by
  rw [signOf, signOf, signOf, ← pow_add, ← List.singleton_append, negatives, List.countP_append]
  rfl

theorem signOf_eq (string : List Byte) :
    signOf string = if Odd (negatives string) then -1 else 1 := by
  split_ifs with hodd
  · exact hodd.neg_one_pow
  · exact (Nat.not_odd_iff_even.mp hodd).neg_one_pow

/-- How far the two hashes are apart behind a string, from equal low bytes on. -/
theorem centre_foldl (string : List Byte) :
    ∀ h r : UInt64, h.toUInt8 = r.toUInt8 →
      centre (string.foldl mix h) - centre (string.foldl mixUnsigned r) ≡
        1099511628211 ^ string.length * (signOf string * centre h - centre r) -
          2 * signShift h.toUInt8 string [ZMOD 2 ^ 57] ∧
      (string.foldl mix h).toUInt8 = (string.foldl mixUnsigned r).toUInt8 := by
  induction string with
  | nil =>
    intro h r hlow
    refine ⟨?_, hlow⟩
    have hone : signOf [] = 1 := rfl
    rw [List.foldl_nil, List.foldl_nil, hone, signShift]
    simp
  | cons b string ih =>
    intro h r hlow
    obtain ⟨htail, hlast⟩ := ih (mix h b) (mixUnsigned r b)
      (by rw [low_mix, low_mixUnsigned, hlow])
    refine ⟨?_, hlast⟩
    rw [low_mix] at htail
    obtain ⟨k, hk⟩ := Int.modEq_iff_dvd.mp (centre_mix h b)
    obtain ⟨l, hl⟩ := Int.modEq_iff_dvd.mp (centre_mixUnsigned r b)
    obtain ⟨m, hm⟩ := Int.modEq_iff_dvd.mp htail
    rw [← hlow] at hl
    rw [List.foldl_cons, List.foldl_cons, signOf_cons, signShift, List.length_cons, signOf_eq string]
    rw [signOf_eq string] at hm
    refine Int.modEq_iff_dvd.mpr ⟨m + 1099511628211 ^ string.length *
      ((if Odd (negatives string) then -1 else 1) * k - l), ?_⟩
    -- the constant of the step counts twice where the signs behind it differ
    split_ifs at hm ⊢ with hodd
    · linear_combination hm + 1099511628211 ^ string.length * (-hk - hl)
    · linear_combination hm + 1099511628211 ^ string.length * (hk - hl)

/-- Two hashes with the same low byte and the same centre. -/
theorem eq_of_centre {h r : UInt64} (hlow : h.toUInt8 = r.toUInt8)
    (hcentre : centre h - centre r ≡ 0 [ZMOD 2 ^ 57]) : h = r := by
  apply UInt64.toNat_inj.mp
  have hl := congrArg UInt8.toNat hlow
  rw [UInt64.toNat_toUInt8, UInt64.toNat_toUInt8] at hl
  have hh := UInt64.toNat_lt h
  have hr := UInt64.toNat_lt r
  unfold Int.ModEq centre at hcentre
  omega

/-! ## When the sign extensions cancel -/

theorem even_offCentre (low : Byte) : Even (offCentre low) := by
  rw [Int.even_iff, offCentre]
  omega

theorem even_signShift (string : List Byte) : ∀ low, Even (signShift low string) := by
  induction string with
  | nil => exact fun _ => Even.zero
  | cons b string ih =>
    intro low
    rw [signShift]
    refine Even.add ?_ (ih _)
    split_ifs
    · exact (even_offCentre _).mul_right _
    · exact Even.zero

/-- Without negative `char`s there is nothing to cancel. -/
theorem signsCancel_of_positive {string : List Byte} (h : ∀ b ∈ string, isNegative b = false) :
    SignsCancel string := by
  have hnone : ∀ s : List Byte, (∀ b ∈ s, isNegative b = false) → negatives s = 0 := by
    intro s hs
    rw [negatives, List.countP_eq_zero]
    exact fun b hb => by simp [hs b hb]
  have hzero : ∀ s : List Byte, (∀ b ∈ s, isNegative b = false) → ∀ low, signShift low s = 0 := by
    intro s
    induction s with
    | nil => exact fun _ _ => rfl
    | cons b s ih =>
      intro hs low
      have htail : ∀ x ∈ s, isNegative x = false := fun x hx => hs x (List.mem_cons_of_mem b hx)
      rw [signShift, hnone s htail, if_neg (by decide), zero_add]
      exact ih htail _
  rw [SignsCancel, hnone string h, hzero string h]
  exact ⟨Even.zero, dvd_zero _⟩

theorem fnv1a_correct_iff (string : List Byte) :
    (fnv1a string).toNat = fnv1aReference string ↔ SignsCancel string := by
  obtain ⟨hcentre, hlow⟩ := centre_foldl string fnvOffset64 fnvOffset64 rfl
  have hoffset : fnvOffset64.toUInt8 = 0x25 := rfl
  rw [hoffset] at hcentre
  have heq : (fnv1a string).toNat = fnv1aReference string ↔
      centre (string.foldl mix fnvOffset64) - centre (string.foldl mixUnsigned fnvOffset64) ≡ 0
        [ZMOD 2 ^ 57] := by
    rw [fnv1a_eq, fnv1aReference_eq, UInt64.toNat_inj]
    constructor
    · intro h
      rw [h, sub_self]
    · exact eq_of_centre hlow
  rw [heq, SignsCancel]
  rw [signOf_eq] at hcentre
  by_cases hodd : Odd (negatives string)
  · -- twice an odd number and an even one
    refine iff_of_false (fun hzero => ?_) fun h => Nat.not_even_iff_odd.mpr hodd h.1
    have hpow : Odd (1099511628211 ^ string.length * centre fnvOffset64) :=
      (Odd.pow (by decide)).mul (by decide)
    obtain ⟨o, ho⟩ := hpow
    obtain ⟨s, hs⟩ := even_signShift string 0x25
    have htwice : (1099511628211 : ℤ) ^ string.length *
        (-1 * centre fnvOffset64 - centre fnvOffset64) = -2 * (2 * o + 1) := by
      linear_combination -2 * ho
    rw [if_pos hodd, htwice, hs] at hcentre
    unfold Int.ModEq at hcentre hzero
    omega
  · rw [if_neg hodd, one_mul, sub_self, mul_zero, zero_sub] at hcentre
    rw [and_iff_right (Nat.not_odd_iff_even.mp hodd)]
    unfold Int.ModEq at hcentre ⊢
    omega

/-- Two negative `char`s that cancel: the first makes the low byte 128. -/
example : SignsCancel [0xa5, 0x80] := by decide

set_option maxRecDepth 4000 in
/-- The key `é`, in UTF-8. -/
theorem fnv1a_not_reference :
    ¬ ∀ string : List Byte, (∀ b ∈ string, b ≠ 0) →
      (fnv1a string).toNat = fnv1aReference string := by
  intro h
  exact absurd (h [0xc3, 0xa9] (by decide)) (by decide)

end Memuncached
