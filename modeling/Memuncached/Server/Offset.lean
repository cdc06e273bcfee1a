import Memuncached.Server.Counter

/-!
# INC and DEC by one offset

INC by an offset and DEC by the same one, with exact numbers in place of
`double`s. A decimal takes the sum rounded toward zero, each time.

* `trunc_sub_trunc_add`: a number after both steps.
* `dec_undoes_inc_iff`: which values come back.
-/

namespace Memuncached.Server

/-! ## Rounding toward zero -/

/-- The conversion of an exact number to an integer. -/
def trunc (q : ℚ) : ℤ := if 0 ≤ q then ⌊q⌋ else ⌈q⌉

theorem toInt64_rat (q : ℚ) : CacheValueReal.toInt64 q = Int64.ofInt (trunc q) := rfl

/-- The number between `m` and `m + 1`, from either side of zero. -/
theorem trunc_add {m : ℤ} {f : ℚ} (h0 : 0 < f) (h1 : f < 1) :
    trunc (m + f) = if 0 ≤ m then m else m + 1 := by
  unfold trunc
  by_cases hm : 0 ≤ m
  · have hpos : (0 : ℚ) ≤ m + f := by
      have : (0 : ℚ) ≤ m := Int.cast_nonneg hm
      linarith
    rw [if_pos hpos, if_pos hm]
    exact Int.floor_eq_iff.mpr ⟨by linarith, by linarith⟩
  · have hneg : ¬ (0 : ℚ) ≤ m + f := by
      have : (m : ℚ) ≤ -1 := by exact_mod_cast Int.le_sub_one_of_lt (not_le.mp hm)
      linarith
    rw [if_neg hneg, if_neg hm]
    apply Int.ceil_eq_iff.mpr
    push_cast
    exact ⟨by linarith, by linarith⟩

theorem trunc_intCast (m : ℤ) : trunc m = m := by
  unfold trunc
  rw [Int.floor_intCast, Int.ceil_intCast, ite_self]

/-- Adding `q` and taking it away again, with a rounding toward zero after
    each. -/
theorem trunc_sub_trunc_add (d : ℤ) (q : ℚ) :
    trunc (trunc (d + q) - q) =
      if Int.fract q = 0 then d
      else if 0 ≤ d + ⌊q⌋ then if 1 ≤ d then d - 1 else d
      else if d ≤ -1 then d + 1 else d := by
  have hq : q = ⌊q⌋ + Int.fract q := (Int.floor_add_fract q).symm
  have h0 := Int.fract_nonneg q
  have h1 := Int.fract_lt_one q
  generalize Int.fract q = f at *
  generalize ⌊q⌋ = n at *
  subst hq
  by_cases hf : f = 0
  · have hsum : (d : ℚ) + (n + f) = ((d + n : ℤ) : ℚ) := by
      push_cast
      rw [hf, add_zero]
    have hback : ((d + n : ℤ) : ℚ) - (n + f) = (d : ℚ) := by
      push_cast
      rw [hf]
      ring
    rw [if_pos hf, hsum, trunc_intCast, hback, trunc_intCast]
  · have hpos : 0 < f := lt_of_le_of_ne h0 (Ne.symm hf)
    have hsum : (d : ℚ) + (n + f) = ((d + n : ℤ) : ℚ) + f := by
      push_cast
      ring
    rw [if_neg hf, hsum, trunc_add hpos h1]
    by_cases hdn : 0 ≤ d + n
    · have hback : ((d + n : ℤ) : ℚ) - (n + f) = ((d - 1 : ℤ) : ℚ) + (1 - f) := by
        push_cast
        ring
      rw [if_pos hdn, if_pos hdn, hback, trunc_add (by linarith) (by linarith)]
      split_ifs <;> omega
    · have hback : ((d + n + 1 : ℤ) : ℚ) - (n + f) = (d : ℚ) + (1 - f) := by
        push_cast
        ring
      rw [if_neg hdn, if_neg hdn, hback, trunc_add (by linarith) (by linarith)]
      split_ifs <;> omega

/-- A sum that does not overflow stays in range. -/
theorem trunc_fits {d : ℤ} {q : ℚ} (hd : -2 ^ 63 ≤ d) (hq : 0 ≤ q) (hfits : (d : ℚ) + q < 2 ^ 63) :
    -2 ^ 63 ≤ trunc (d + q) ∧ trunc (d + q) < 2 ^ 63 := by
  have hdq : (d : ℚ) ≤ d + q := by linarith
  unfold trunc
  split_ifs with h
  · exact ⟨hd.trans (Int.le_floor.mpr hdq), Int.floor_lt.mpr (by exact_mod_cast hfits)⟩
  · have hceil : ⌈(d : ℚ) + q⌉ ≤ 0 := Int.ceil_le.mpr (by push_cast; linarith)
    have hle : d ≤ ⌈(d : ℚ) + q⌉ := by exact_mod_cast hdq.trans (Int.le_ceil _)
    omega

/-! ## Offsets -/

/-- The OFFSETs that `handle_command` accepts. -/
def AcceptedOffset (offset : Option (List Byte)) : Prop :=
  ∀ s ∈ offset, s.headD 0 ≠ 45 ∧ isRealString s = true

/-- An accepted text starts with a digit or a plus sign. -/
theorem splitSign_of_accepted {s : List Byte} (hneg : s.headD 0 ≠ 45) (h : isRealString s = true) :
    ∃ num, splitSign (s.dropWhile isSpace) = (false, num) := by
  cases s with
  | nil => simp [isRealString] at h
  | cons b rest =>
    have hb : b ≠ 45 := hneg
    by_cases hplus : b = 43
    · subst hplus
      refine ⟨rest, ?_⟩
      rw [List.dropWhile_cons_of_neg (by decide)]
      rfl
    · have hdigit : isDigit b = true := by
        by_contra hd
        by_cases hdot : b = 46
        · simp [isRealString, hdot] at h
        · simp [isRealString, isRealStringLoop, hdot, hplus, hb, hd] at h
      refine ⟨b :: rest, ?_⟩
      rw [List.dropWhile_cons_of_neg (by simp [not_isSpace_of_isDigit hdigit]),
        splitSign_of_isDigit hdigit]

theorem vOffset_nonneg {offset : Option (List Byte)} (h : AcceptedOffset offset) :
    (0 : ℚ) ≤ vOffset offset := by
  cases offset with
  | none => exact Int.cast_nonneg (by decide)
  | some s =>
    obtain ⟨hneg, hreal⟩ := h s rfl
    obtain ⟨num, hnum⟩ := splitSign_of_accepted hneg hreal
    show 0 ≤ (CacheValueReal.atof s : ℚ)
    rw [atof_rat hnum]
    exact unsignedVal_nonneg num

/-! ## INC, then DEC -/

/-- The decimal after INC and DEC. -/
theorem toInt64_roundTrip_iff (d : Int64) {q : ℚ} (hq : 0 ≤ q)
    (hfits : (d.toInt : ℚ) + q < 2 ^ 63) :
    CacheValueReal.toInt64
        (((CacheValueReal.toInt64 ((d.toInt : ℚ) + q)).toInt : ℚ) - q) = d ↔
      Int.fract q = 0 ∨ (d.toInt ≤ 0 ∧ 0 ≤ d.toInt + ⌊q⌋) := by
  have hmin : -2 ^ 63 ≤ d.toInt := Int64.le_toInt d
  have hmax : d.toInt < 2 ^ 63 := Int64.toInt_lt d
  have hn : 0 ≤ ⌊q⌋ := Int.floor_nonneg.mpr hq
  have hfirst : (CacheValueReal.toInt64 ((d.toInt : ℚ) + q)).toInt = trunc (d.toInt + q) := by
    obtain ⟨h1, h2⟩ := trunc_fits hmin hq hfits
    rw [toInt64_rat, Int64.toInt_ofInt_of_le h1 h2]
  have htwice := trunc_sub_trunc_add d.toInt q
  rw [hfirst, toInt64_rat, htwice, ← Int64.toInt_inj, Int64.toInt_ofInt_of_le]
  · by_cases hf : Int.fract q = 0
    · simp only [hf, if_true, true_or]
    · simp only [hf, if_false, false_or]
      split_ifs <;> omega
  · split_ifs <;> omega
  · split_ifs <;> omega

variable {t : HashTable ℚ} {key : List Byte} {v : CacheValue ℚ}

/-- INC and then DEC of a number. -/
theorem hashTableGet_incDec (hv : hashTableGet t key = some v) (hs : v.type ≠ cacheValueString)
    (offset initial initial' : Option (List Byte)) :
    hashTableGet (CounterOp.exec .dec key offset initial' (CounterOp.exec .inc key offset initial t))
        key =
      some ((v.update CacheValueReal.add (vOffset offset)).update CacheValueReal.sub
        (vOffset offset)) := by
  have hs' : (v.update CounterOp.inc.apply (vOffset offset)).type ≠ cacheValueString := hs
  rw [hashTableGet_counter, hashTableGet_counter, hv]
  simp only [counterValue, if_neg hs]
  rw [if_neg hs']
  rfl

/-- DEC undoes INC exactly for reals, for whole offsets, and for decimals that
    INC takes from below to zero or above. -/
theorem dec_undoes_inc_iff (ht : Reachable t) (hv : hashTableGet t key = some v)
    (hs : v.type ≠ cacheValueString) {offset : Option (List Byte)} (hoffset : AcceptedOffset offset)
    (initial initial' : Option (List Byte))
    (hfits : v.type = cacheValueDecimal →
      (v.value.asDecimal.toInt : ℚ) + vOffset offset < 2 ^ 63) :
    hashTableGet (CounterOp.exec .dec key offset initial' (CounterOp.exec .inc key offset initial t))
        key = some v ↔
      v.type = cacheValueReal ∨ Int.fract (vOffset offset : ℚ) = 0 ∨
        (v.value.asDecimal.toInt ≤ 0 ∧
          0 ≤ v.value.asDecimal.toInt + ⌊(vOffset offset : ℚ)⌋) := by
  have h01 : cacheValueReal ≠ cacheValueDecimal := by decide
  rw [hashTableGet_incDec hv hs, Option.some.injEq]
  rcases ht.wellFormed _ v hv with ⟨htype, ⟨d, hd⟩, -⟩ | ⟨htype, ⟨r, hr⟩, -⟩ | ⟨htype, -⟩
  · have hround := toInt64_roundTrip_iff d (vOffset_nonneg hoffset)
      (by simpa [hd, CacheData.asDecimal] using hfits htype)
    obtain ⟨k, ty, value, len⟩ := v
    dsimp only at htype hd
    subst htype hd
    simp only [CacheValue.update, if_true, CacheData.asDecimal, CacheValue.mk.injEq,
      CacheData.decimal.injEq, true_and, and_true, h01.symm, false_or]
    exact hround
  · obtain ⟨k, ty, value, len⟩ := v
    dsimp only at htype hr
    subst htype hr
    refine iff_of_true ?_ (Or.inl rfl)
    simp only [CacheValue.update, if_neg h01, if_true, CacheData.asReal, CacheValue.mk.injEq,
      CacheData.real.injEq, true_and, and_true]
    exact add_sub_cancel_right r _
  · exact absurd htype hs

/-- A table with the decimal 5 under `a`. -/
def tableWithFive : HashTable ℚ :=
  (hashTableSet (hashTableCreate ℚ 1 Nat.one_pos) (ascii "a") cacheValueDecimal (.decimal 5) 0).2

def five : CacheValue ℚ where
  key := ascii "a"
  type := cacheValueDecimal
  value := .decimal 5
  length := 0

theorem tableWithFive_reachable : Reachable tableWithFive :=
  Reachable.call (.set (ascii "a") cacheValueDecimal (.decimal 5) 0)
    (Reachable.create 1 Nat.one_pos) (Or.inl ⟨rfl, rfl⟩)

/-- By 1, the OFFSET that is taken when none is given. -/
theorem dec_undoes_inc_one :
    hashTableGet (CounterOp.exec .dec (ascii "a") none none
      (CounterOp.exec .inc (ascii "a") none none tableWithFive)) (ascii "a") = some five := by
  apply (dec_undoes_inc_iff tableWithFive_reachable rfl (by decide) (by simp [AcceptedOffset])
    none none ?_).mpr
  · right
    left
    exact Int.fract_intCast 1
  · intro _
    have hfive : (5 : Int64).toInt = 5 := by decide
    show (((5 : Int64).toInt : ℤ) : ℚ) + ((1 : ℤ) : ℚ) < 2 ^ 63
    rw [hfive]
    norm_num

/-- By `0.5` the decimal 5 becomes 4. -/
theorem dec_not_undoes_inc_half :
    Reachable tableWithFive ∧ hashTableGet tableWithFive (ascii "a") = some five ∧
      AcceptedOffset (some (ascii "0.5")) ∧
      hashTableGet (CounterOp.exec .dec (ascii "a") (some (ascii "0.5")) none
        (CounterOp.exec .inc (ascii "a") (some (ascii "0.5")) none tableWithFive)) (ascii "a") ≠
      some five := by
  refine ⟨tableWithFive_reachable, rfl, ?_, ?_⟩
  · intro s hs
    cases hs
    decide
  · have hfour : ((five.update CacheValueReal.add (vOffset (some (ascii "0.5")))).update
        CacheValueReal.sub (vOffset (some (ascii "0.5")))).value = .decimal 4 := by decide +kernel
    rw [hashTableGet_incDec (v := five) rfl (by decide), ne_eq, Option.some.injEq]
    intro h
    rw [h] at hfour
    exact absurd hfour (by decide)

end Memuncached.Server
