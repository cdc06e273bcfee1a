import Mathlib

/-!
# Rounding to nearest, ties to even

Integers rounded to `p` significant bits, as floating point arithmetic does
without overflow.

* `round_add_eq_iff`: `y + e` rounds to `y` exactly when `y` has at most `p`
  significant bits and `e` is at most half the distance to the next such number
  (`AbsorbsError`).
-/

namespace NearestEven

variable {p : ℕ}

/-- The weight of the last of `p` significant bits of `a`. -/
def ulp (p a : ℕ) : ℕ := 2 ^ (a.size - p)

/-- `a` rounded to `p` significant bits. -/
def roundNat (p a : ℕ) : ℕ :=
  let u := ulp p a
  let r := a % u
  if 2 * r < u ∨ (2 * r = u ∧ Even (a / u)) then a / u * u else (a / u + 1) * u

/-- The same with the sign kept. -/
def round (p : ℕ) (x : ℤ) : ℤ := x.sign * roundNat p x.natAbs

/-- What rounding adds to `a`. -/
def errorNat (p a : ℕ) : ℤ :=
  let u := ulp p a
  let r := a % u
  if 2 * r < u ∨ (2 * r = u ∧ Even (a / u)) then -r else u - r

/-- What rounding adds to `x`. -/
def error (p : ℕ) (x : ℤ) : ℤ := x.sign * errorNat p x.natAbs

/-- `x` has at most `p` significant bits. -/
def Representable (p : ℕ) (x : ℤ) : Prop := ulp p x.natAbs ∣ x.natAbs

/-- An error of `e` is at most half the distance from `y` to the next number of
    `p` significant bits, and less than half where a tie goes to that number.
    Below a power of two that distance is half an `ulp`. -/
def AbsorbsError (p : ℕ) (y e : ℤ) : Prop :=
  let u := ulp p y.natAbs
  if e * y < 0 ∧ y.natAbs = 2 ^ (p - 1) * u then 4 * e.natAbs ≤ u
  else 2 * e.natAbs < u ∨ (2 * e.natAbs = u ∧ Even (y.natAbs / u))

/-! ## Scales -/

/-- `a` lies where `p` bits reach down to `2 ^ k`. -/
def AtScale (p k a : ℕ) : Prop := (k = 0 ∨ 2 ^ (p - 1) * 2 ^ k ≤ a) ∧ a < 2 ^ p * 2 ^ k

theorem two_mul_two_pow_pred (hp : 0 < p) : 2 * 2 ^ (p - 1) = 2 ^ p := by
  rw [← pow_succ', Nat.sub_add_cancel hp]

theorem atScale_size (hp : 0 < p) (a : ℕ) : AtScale p (a.size - p) a := by
  constructor
  · rcases Nat.eq_zero_or_pos (a.size - p) with h | h
    · exact Or.inl h
    · right
      rw [← pow_add]
      apply Nat.lt_size.mp
      omega
  · rw [← pow_add]
    apply Nat.size_le.mp
    omega

theorem AtScale.ulp_eq (hp : 0 < p) {k a : ℕ} (h : AtScale p k a) : ulp p a = 2 ^ k := by
  obtain ⟨hlow, hhigh⟩ := h
  rw [← pow_add] at hhigh
  have hle : a.size ≤ p + k := Nat.size_le.mpr hhigh
  have heq : a.size - p = k := by
    rcases hlow with rfl | hlow
    · omega
    · rw [← pow_add] at hlow
      have hlt : p - 1 + k < a.size := Nat.lt_size.mpr hlow
      omega
  rw [ulp, heq]

/-- Rounding at a known scale. -/
theorem AtScale.roundNat_eq (hp : 0 < p) {k q r : ℕ} (h : AtScale p k (q * 2 ^ k + r))
    (hr : r < 2 ^ k) :
    roundNat p (q * 2 ^ k + r) =
      if 2 * r < 2 ^ k ∨ (2 * r = 2 ^ k ∧ Even q) then q * 2 ^ k else (q + 1) * 2 ^ k := by
  have hdiv : (q * 2 ^ k + r) / 2 ^ k = q := by
    rw [Nat.mul_comm, Nat.mul_add_div (by positivity), Nat.div_eq_of_lt hr, Nat.add_zero]
  have hmod : (q * 2 ^ k + r) % 2 ^ k = r := by
    rw [Nat.mul_comm, Nat.mul_add_mod, Nat.mod_eq_of_lt hr]
  unfold roundNat
  rw [h.ulp_eq hp]
  dsimp only
  rw [hdiv, hmod]

/-- Every number is a multiple of its scale and a rest. -/
theorem exists_atScale (hp : 0 < p) (a : ℕ) :
    ∃ k q r, a = q * 2 ^ k + r ∧ r < 2 ^ k ∧ AtScale p k a := by
  refine ⟨a.size - p, a / 2 ^ (a.size - p), a % 2 ^ (a.size - p), ?_, ?_, atScale_size hp a⟩
  · rw [Nat.mul_comm]
    exact (Nat.div_add_mod _ _).symm
  · exact Nat.mod_lt _ (by positivity)

theorem AtScale.le_roundNat (hp : 0 < p) {k q r : ℕ} (h : AtScale p k (q * 2 ^ k + r))
    (hr : r < 2 ^ k) : q * 2 ^ k ≤ roundNat p (q * 2 ^ k + r) := by
  rw [h.roundNat_eq hp hr]
  split_ifs
  · exact le_rfl
  · exact Nat.mul_le_mul_right _ (Nat.le_succ q)

theorem AtScale.roundNat_le (hp : 0 < p) {k q r : ℕ} (h : AtScale p k (q * 2 ^ k + r))
    (hr : r < 2 ^ k) : roundNat p (q * 2 ^ k + r) ≤ (q + 1) * 2 ^ k := by
  rw [h.roundNat_eq hp hr]
  split_ifs
  · exact Nat.mul_le_mul_right _ (Nat.le_succ q)
  · exact le_rfl

/-- The quotient of a number at scale `k` has at most `p` bits. -/
theorem AtScale.quotient_lt {k q r : ℕ} (h : AtScale p k (q * 2 ^ k + r)) : q < 2 ^ p := by
  have hlt := h.2
  have hmul : q * 2 ^ k < 2 ^ p * 2 ^ k := by omega
  exact Nat.lt_of_mul_lt_mul_right hmul

theorem AtScale.le_of_le {k k' a b : ℕ} (ha : AtScale p k a) (hb : AtScale p k' b) (hab : a ≤ b) :
    k ≤ k' := by
  rcases ha.1 with rfl | hlow
  · exact Nat.zero_le k'
  · by_contra hlt
    have hb' := hb.2
    have hpow : 2 ^ p * 2 ^ k' ≤ 2 ^ (p - 1) * 2 ^ k := by
      rw [← pow_add, ← pow_add]
      exact Nat.pow_le_pow_right (by norm_num) (by omega)
    omega

/-- Above scale 0 it has exactly `p` bits. -/
theorem AtScale.le_quotient {k q r : ℕ} (h : AtScale p k (q * 2 ^ k + r)) (hr : r < 2 ^ k)
    (hk : k ≠ 0) : 2 ^ (p - 1) ≤ q := by
  have hlow := h.1.resolve_left hk
  have hmul : 2 ^ (p - 1) * 2 ^ k < (q + 1) * 2 ^ k := by
    rw [Nat.add_mul, Nat.one_mul]
    omega
  exact Nat.le_of_lt_succ (Nat.lt_of_mul_lt_mul_right hmul)

/-! ## Rounding back to a representable number -/

theorem roundNat_add_eq_iff (hp : 0 < p) {k m : ℕ} (hb : AtScale p k (m * 2 ^ k)) (e : ℕ) :
    roundNat p (m * 2 ^ k + e) = m * 2 ^ k ↔ 2 * e < 2 ^ k ∨ (2 * e = 2 ^ k ∧ Even m) := by
  have hpos : 0 < 2 ^ k := by positivity
  have hm : m < 2 ^ p := AtScale.quotient_lt (r := 0) hb
  by_cases he : e < 2 ^ k
  · -- the same scale
    have hscale : AtScale p k (m * 2 ^ k + e) := by
      constructor
      · exact hb.1.imp_right fun h => h.trans (Nat.le_add_right _ _)
      · have hnext : (m + 1) * 2 ^ k ≤ 2 ^ p * 2 ^ k := Nat.mul_le_mul_right _ hm
        rw [Nat.add_mul, Nat.one_mul] at hnext
        omega
    rw [hscale.roundNat_eq hp he]
    split_ifs with h
    · exact iff_of_true rfl h
    · refine iff_of_false ?_ h
      rw [Nat.add_mul, Nat.one_mul]
      omega
  · -- too far away: the result is larger
    refine iff_of_false ?_ (by omega)
    obtain ⟨k', q, r, ha, hr, hscale⟩ := exists_atScale hp (m * 2 ^ k + e)
    have hkk : k ≤ k' := hb.le_of_le hscale (Nat.le_add_right _ _)
    rw [ha] at hscale ⊢
    have hle := hscale.le_roundNat hp hr
    have hlt : m * 2 ^ k < q * 2 ^ k' := by
      rcases Nat.eq_or_lt_of_le hkk with rfl | hkk
      · have hmul : (m + 1) * 2 ^ k < (q + 1) * 2 ^ k := by
          rw [Nat.add_mul, Nat.add_mul, Nat.one_mul]
          omega
        have hmq := Nat.lt_of_mul_lt_mul_right hmul
        exact Nat.mul_lt_mul_of_pos_right (by omega) hpos
      · have hq := hscale.le_quotient hr (by omega)
        calc m * 2 ^ k < 2 ^ p * 2 ^ k := Nat.mul_lt_mul_of_pos_right hm hpos
          _ ≤ 2 ^ (p - 1) * 2 ^ k' := by
            rw [← pow_add, ← pow_add]
            exact Nat.pow_le_pow_right (by norm_num) (by omega)
          _ ≤ q * 2 ^ k' := Nat.mul_le_mul_right _ hq
    omega

/-- Rounding gives one of two neighbours. -/
theorem AtScale.roundNat_eq_succ_iff (hp : 0 < p) {k q r : ℕ} (h : AtScale p k (q * 2 ^ k + r))
    (hr : r < 2 ^ k) {b : ℕ} (hb : q * 2 ^ k < b) :
    roundNat p (q * 2 ^ k + r) = b ↔
      (q + 1) * 2 ^ k = b ∧ (2 ^ k < 2 * r ∨ (2 * r = 2 ^ k ∧ ¬ Even q)) := by
  rw [h.roundNat_eq hp hr]
  split_ifs with hdown
  · refine iff_of_false (by omega) fun hup => ?_
    rcases hup.2 with h | ⟨h, hodd⟩
    · omega
    · exact hdown.elim (by omega) fun h => hodd h.2
  · rw [not_or, not_and] at hdown
    refine (and_iff_left ?_).symm
    by_cases htie : 2 * r = 2 ^ k
    · exact Or.inr ⟨htie, hdown.2 htie⟩
    · exact Or.inl (by omega)

/-- From a scale below, only the largest number there is within half a unit of
    `m * (c * u)`. -/
theorem lt_two_mul_of_scale_lt {P u c m q r d : ℕ} (hP : 0 < P) (hc : c = 2 ∨ 4 ≤ c) (hm : P ≤ m)
    (hq : q + 1 ≤ 2 * P) (hr : r < u) (h : q * u + r + d = m * (c * u))
    (hne : ¬ (m = P ∧ c = 2 ∧ q + 1 = 2 * P)) : c * u < 2 * d := by
  have hfar : 2 * (q + 1) + c ≤ 2 * (m * c) := by
    rcases Nat.eq_or_lt_of_le hm with rfl | hm
    · rcases hc with rfl | hc
      · omega
      · have hPc : 4 * P + c ≤ 2 * (P * c) := by nlinarith
        omega
    · have hmc : (P + 1) * c ≤ m * c := Nat.mul_le_mul_right c hm
      have hPc : 2 * P ≤ P * c := by
        rw [Nat.mul_comm]
        exact Nat.mul_le_mul_left P (by omega)
      rw [Nat.add_mul, Nat.one_mul] at hmc
      omega
  have hmul : (2 * (q + 1) + c) * u ≤ 2 * (m * c) * u := Nat.mul_le_mul_right u hfar
  have hleft : (2 * (q + 1) + c) * u = 2 * (q * u) + 2 * u + c * u := by ring
  have hright : 2 * (m * c) * u = 2 * (m * (c * u)) := by ring
  omega

theorem roundNat_sub_eq_iff (hp : 0 < p) {k m d : ℕ} (hb : AtScale p k (m * 2 ^ k)) (hd : 0 < d)
    (hdm : d ≤ m * 2 ^ k) :
    roundNat p (m * 2 ^ k - d) = m * 2 ^ k ↔
      if m = 2 ^ (p - 1) then 4 * d ≤ 2 ^ k else 2 * d < 2 ^ k ∨ (2 * d = 2 ^ k ∧ Even m) := by
  have hP : 0 < 2 ^ (p - 1) := by positivity
  have h2P := two_mul_two_pow_pred hp
  obtain ⟨k', q, r, ha, hr, hscale⟩ := exists_atScale hp (m * 2 ^ k - d)
  have hkk : k' ≤ k := hscale.le_of_le hb (Nat.sub_le _ _)
  rw [ha] at hscale ⊢
  have hlt : q * 2 ^ k' < m * 2 ^ k := by omega
  rw [hscale.roundNat_eq_succ_iff hp hr hlt]
  have hq : q + 1 ≤ 2 ^ p := hscale.quotient_lt
  rcases Nat.eq_or_lt_of_le hkk with rfl | hkk
  · -- `b - d` at the scale of `b`
    have hqm : q < m := Nat.lt_of_mul_lt_mul_right hlt
    rcases Nat.eq_or_lt_of_le (Nat.succ_le_of_lt hqm) with rfl | hqm
    · have hdr : d + r = 2 ^ k' := by
        rw [Nat.succ_eq_add_one, Nat.add_mul, Nat.one_mul] at ha hdm
        omega
      have hparity : Even (q + 1) ↔ ¬ Even q := Nat.even_add_one
      have hif : q + 1 ≠ 2 ^ (p - 1) ∨ 2 ^ k' = 1 := by
        by_cases hk : k' = 0
        · exact Or.inr (by rw [hk, pow_zero])
        · have := hscale.le_quotient hr hk
          omega
      rw [Nat.succ_eq_add_one, hparity]
      split_ifs
      · omega
      · simp only [true_and]
        constructor
        · exact Or.imp (fun h => by omega) (fun h => ⟨by omega, h.2⟩)
        · exact Or.imp (fun h => by omega) (fun h => ⟨by omega, h.2⟩)
    · have hfar : (q + 2) * 2 ^ k' ≤ m * 2 ^ k' := Nat.mul_le_mul_right _ hqm
      have hne : (q + 1) * 2 ^ k' ≠ m * 2 ^ k' := by
        rw [Nat.add_mul] at hfar ⊢
        have : 0 < 2 ^ k' := by positivity
        omega
      refine iff_of_false (fun h => hne h.1) ?_
      rw [Nat.add_mul] at hfar
      split_ifs <;> omega
  · -- `b - d` below a power of two that `b` reaches
    have hm : 2 ^ (p - 1) ≤ m :=
      AtScale.le_quotient (r := 0) hb (by positivity) (Nat.ne_of_gt (Nat.zero_lt_of_lt hkk))
    have hscale' : 2 ^ k = 2 ^ (k - k') * 2 ^ k' := by
      rw [← pow_add, Nat.sub_add_cancel hkk.le]
    have hc : 2 ^ (k - k') = 2 ∨ 4 ≤ 2 ^ (k - k') := by
      rcases Nat.eq_or_lt_of_le (Nat.sub_pos_of_lt hkk) with h1 | h1
      · exact Or.inl (by rw [← h1]; rfl)
      · exact Or.inr (Nat.pow_le_pow_right (n := 2) (by norm_num) h1)
    have hsum : q * 2 ^ k' + r + d = m * (2 ^ (k - k') * 2 ^ k') := by
      rw [← hscale']
      omega
    rw [hscale']
    generalize 2 ^ (k - k') = c at hc hsum
    by_cases hlast : m = 2 ^ (p - 1) ∧ c = 2 ∧ q + 1 = 2 * 2 ^ (p - 1)
    · obtain ⟨rfl, rfl, hq⟩ := hlast
      have hodd : ¬ Even q := by
        have hev : Even (q + 1) := hq ▸ even_two_mul _
        exact Nat.even_add_one.mp hev
      have heq : (q + 1) * 2 ^ k' = 2 ^ (p - 1) * (2 * 2 ^ k') := by
        rw [hq]
        ring
      have hdr : d + r = 2 ^ k' := by
        rw [Nat.add_mul, Nat.one_mul] at heq
        omega
      rw [if_pos rfl]
      simp only [heq, hodd, true_and, not_false_eq_true, and_true]
      omega
    · have hfar := lt_two_mul_of_scale_lt hP hc hm (h2P ▸ hq) hr hsum hlast
      have h2u : 2 * 2 ^ k' ≤ c * 2 ^ k' := Nat.mul_le_mul_right _ (by omega)
      refine iff_of_false (fun hup => ?_) (by split_ifs <;> omega)
      have hup := hup.1
      rw [Nat.add_mul, Nat.one_mul] at hup
      omega

/-! ## Integers -/

theorem roundNat_zero (p : ℕ) : roundNat p 0 = 0 := by
  simp [roundNat, ulp]

theorem natAbs_round (p : ℕ) (x : ℤ) : (round p x).natAbs = roundNat p x.natAbs := by
  rcases eq_or_ne x 0 with rfl | hx
  · simp [round, roundNat_zero]
  · rw [round, Int.natAbs_mul, Int.natAbs_sign_of_ne_zero hx, Nat.one_mul, Int.natAbs_natCast]

/-- The error is what rounding adds. -/
theorem round_eq_add_error (p : ℕ) (x : ℤ) : round p x = x + error p x := by
  have hnat : (roundNat p x.natAbs : ℤ) = x.natAbs + errorNat p x.natAbs := by
    have hdiv := Nat.div_add_mod x.natAbs (ulp p x.natAbs)
    rw [Nat.mul_comm] at hdiv
    unfold roundNat errorNat
    dsimp only
    generalize ulp p x.natAbs = u at *
    split_ifs
    · omega
    · rw [Nat.add_mul, Nat.one_mul]
      omega
  rw [round, error, hnat, mul_add, Int.sign_mul_natAbs]

theorem round_neg (p : ℕ) (x : ℤ) : round p (-x) = -round p x := by
  simp [round]

theorem round_natCast (p n : ℕ) : round p n = roundNat p n := by
  rcases Nat.eq_zero_or_pos n with rfl | hn
  · simp [round, roundNat_zero]
  · rw [round, Int.sign_eq_one_of_pos (by omega), Int.natAbs_natCast, one_mul]

/-- Numbers of at most `p` bits are left alone. -/
theorem roundNat_of_lt (hp : 0 < p) {n : ℕ} (hn : n < 2 ^ p) : roundNat p n = n := by
  have hscale : AtScale p 0 (n * 2 ^ 0) := ⟨Or.inl rfl, by simpa using hn⟩
  have h := (roundNat_add_eq_iff hp hscale 0).mpr (Or.inl (by norm_num))
  simpa using h

/-- The result of rounding has at most `p` significant bits. -/
theorem representable_round (hp : 0 < p) (x : ℤ) : Representable p (round p x) := by
  unfold Representable
  rw [natAbs_round]
  obtain ⟨k, q, r, ha, hr, hscale⟩ := exists_atScale hp x.natAbs
  have hq : q < 2 ^ p := (ha ▸ hscale).quotient_lt
  rw [ha] at hscale ⊢
  have hlow : ∀ m, q ≤ m → k = 0 ∨ 2 ^ (p - 1) * 2 ^ k ≤ m * 2 ^ k := by
    intro m hm
    refine or_iff_not_imp_left.mpr fun hk => ?_
    exact Nat.mul_le_mul_right _ ((hscale.le_quotient hr hk).trans hm)
  have hdvd : ∀ m, q ≤ m → m < 2 ^ p → ulp p (m * 2 ^ k) ∣ m * 2 ^ k := by
    intro m hm hlt
    have hm' : AtScale p k (m * 2 ^ k) :=
      ⟨hlow m hm, Nat.mul_lt_mul_of_pos_right hlt (by positivity)⟩
    rw [hm'.ulp_eq hp]
    exact Nat.dvd_mul_left _ _
  rw [hscale.roundNat_eq hp hr]
  split_ifs
  · exact hdvd q le_rfl hq
  · rcases Nat.eq_or_lt_of_le (Nat.succ_le_of_lt hq) with hq | hq
    · -- up to the next power of two
      have hnext : AtScale p (k + 1) (2 ^ p * 2 ^ k) := by
        constructor
        · right
          rw [← pow_add, ← pow_add]
          exact (Nat.pow_le_pow_right (by norm_num) (by omega))
        · rw [← pow_add, ← pow_add]
          exact Nat.pow_lt_pow_right (by norm_num) (by omega)
      rw [← Nat.succ_eq_add_one, hq, hnext.ulp_eq hp, ← pow_add]
      exact Nat.pow_dvd_pow 2 (by omega)
    · exact hdvd (q + 1) (Nat.le_succ q) hq

theorem representable_iff (hp : 0 < p) {y : ℤ} :
    Representable p y ↔ ∃ k m, y.natAbs = m * 2 ^ k ∧ AtScale p k (m * 2 ^ k) := by
  constructor
  · intro ⟨m, hm⟩
    rw [Nat.mul_comm] at hm
    exact ⟨y.natAbs.size - p, m, hm, hm ▸ atScale_size hp y.natAbs⟩
  · rintro ⟨k, m, hm, hscale⟩
    unfold Representable
    rw [hm, hscale.ulp_eq hp]
    exact Nat.dvd_mul_left _ _

theorem absorbsError_neg (p : ℕ) (y e : ℤ) : AbsorbsError p (-y) (-e) ↔ AbsorbsError p y e := by
  unfold AbsorbsError
  rw [Int.natAbs_neg, Int.natAbs_neg, neg_mul_neg]

/-- `y + e` rounds to a natural number `y` of at most `p` bits if `y` absorbs
    `e`, only. -/
theorem round_natCast_add_eq_iff (hp : 0 < p) {k m : ℕ} (hscale : AtScale p k (m * 2 ^ k)) (e : ℤ) :
    round p (((m * 2 ^ k : ℕ) : ℤ) + e) = (m * 2 ^ k : ℕ) ↔ AbsorbsError p (m * 2 ^ k : ℕ) e := by
  have hpos : 0 < 2 ^ k := by positivity
  have hdiv : m * 2 ^ k / 2 ^ k = m := Nat.mul_div_cancel m hpos
  have hlow : k = 0 ∨ 2 ^ k ≤ m * 2 ^ k := by
    refine hscale.1.imp_right fun h => le_trans ?_ h
    exact Nat.le_mul_of_pos_left _ (by positivity)
  unfold AbsorbsError
  rw [Int.natAbs_natCast, hscale.ulp_eq hp]
  dsimp only
  rw [hdiv]
  rcases le_or_gt 0 e with he | he
  · obtain ⟨e, rfl⟩ := Int.eq_ofNat_of_zero_le he
    have hsign : ¬ (e : ℤ) * (m * 2 ^ k : ℕ) < 0 := by
      rw [not_lt]
      positivity
    rw [if_neg fun h => hsign h.1, ← Nat.cast_add, round_natCast, Nat.cast_inj, Int.natAbs_natCast,
      roundNat_add_eq_iff hp hscale e]
  · obtain ⟨d, rfl⟩ : ∃ d : ℕ, e = -d := ⟨e.natAbs, by omega⟩
    rw [Int.natAbs_neg, Int.natAbs_natCast]
    by_cases hle : d ≤ m * 2 ^ k
    · have hsign : -(d : ℤ) * (m * 2 ^ k : ℕ) < 0 :=
        mul_neg_of_neg_of_pos he (Int.natCast_pos.mpr (by omega))
      have hpow : m * 2 ^ k = 2 ^ (p - 1) * 2 ^ k ↔ m = 2 ^ (p - 1) :=
        Nat.mul_left_inj hpos.ne'
      rw [← sub_eq_add_neg, ← Nat.cast_sub hle, round_natCast, Nat.cast_inj,
        roundNat_sub_eq_iff hp hscale (by omega) hle]
      simp only [hsign, hpow, true_and]
    · -- the sum is negative
      have hsum : ((m * 2 ^ k : ℕ) : ℤ) + -d = -((d - m * 2 ^ k : ℕ) : ℤ) := by omega
      have hpos' : 0 < roundNat p (d - m * 2 ^ k) := by
        have hscale0 : AtScale p 0 (0 * 2 ^ 0) := ⟨Or.inl rfl, by simp⟩
        have h := roundNat_add_eq_iff hp hscale0 (d - m * 2 ^ k)
        rw [Nat.zero_mul, Nat.zero_add, pow_zero] at h
        omega
      refine iff_of_false ?_ ?_
      · rw [hsum, round_neg, round_natCast]
        omega
      · rcases hlow with rfl | hlow
        · rw [pow_zero] at hle ⊢
          split_ifs <;> omega
        · split_ifs <;> omega

/-- `y + e` rounds to `y` exactly when `y` has at most `p` bits and absorbs
    `e`. -/
theorem round_add_eq_iff (hp : 0 < p) (y e : ℤ) :
    round p (y + e) = y ↔ Representable p y ∧ AbsorbsError p y e := by
  have hiff : Representable p y → (round p (y + e) = y ↔ AbsorbsError p y e) := by
    intro hy
    obtain ⟨k, m, hm, hscale⟩ := (representable_iff hp).mp hy
    rcases Int.natAbs_eq y with hsign | hsign
    · rw [hsign, hm]
      exact round_natCast_add_eq_iff hp hscale e
    · have h := round_natCast_add_eq_iff hp hscale (-e)
      rw [← absorbsError_neg, neg_neg] at h
      rw [hsign, hm, ← h, ← neg_inj, ← round_neg, neg_neg, neg_add, neg_neg]
  constructor
  · intro h
    have hy : Representable p y := h ▸ representable_round hp (y + e)
    exact ⟨hy, (hiff hy).mp h⟩
  · intro ⟨hy, he⟩
    exact (hiff hy).mpr he

theorem absorbsError_zero (p : ℕ) (y : ℤ) : AbsorbsError p y 0 := by
  have hpos : 0 < ulp p y.natAbs := by
    unfold ulp
    positivity
  unfold AbsorbsError
  rw [Int.natAbs_zero, if_neg (by omega)]
  exact Or.inl (by omega)

/-- Rounding twice is rounding once. -/
theorem round_round (hp : 0 < p) (x : ℤ) : round p (round p x) = round p x := by
  have h := round_add_eq_iff hp (round p x) 0
  rw [add_zero] at h
  exact h.mpr ⟨representable_round hp x, absorbsError_zero p _⟩

/-- The relative error of rounding. -/
theorem natAbs_error_le (hp : 0 < p) (x : ℤ) :
    (error p x).natAbs * 2 ^ (p - 1) ≤ x.natAbs := by
  have hdist : (error p x).natAbs = ((roundNat p x.natAbs : ℤ) - x.natAbs).natAbs := by
    have herror : error p x = round p x - x := by
      rw [round_eq_add_error]
      omega
    rw [herror]
    rcases Int.natAbs_eq x with h | h
    · rw [h, round_natCast, Int.natAbs_natCast]
    · rw [h, round_neg, round_natCast, Int.natAbs_neg, Int.natAbs_natCast]
      omega
  rw [hdist]
  obtain ⟨k, q, r, ha, hr, hscale⟩ := exists_atScale hp x.natAbs
  generalize x.natAbs = a at *
  subst ha
  have hle := hscale.le_roundNat hp hr
  have hge := hscale.roundNat_le hp hr
  rcases Nat.eq_zero_or_pos k with rfl | hk
  · have heq : roundNat p (q * 2 ^ 0 + r) = q * 2 ^ 0 + r := by
      have hlt := hscale.2
      rw [pow_zero, Nat.mul_one (2 ^ p)] at hlt
      exact roundNat_of_lt hp (by rwa [pow_zero])
    rw [heq, sub_self, Int.natAbs_zero, Nat.zero_mul]
    exact Nat.zero_le _
  · rw [Nat.add_mul, Nat.one_mul] at hge
    have herr : (((roundNat p (q * 2 ^ k + r) : ℕ) : ℤ) - (q * 2 ^ k + r : ℕ)).natAbs ≤ 2 ^ k := by
      omega
    calc (((roundNat p (q * 2 ^ k + r) : ℕ) : ℤ) - (q * 2 ^ k + r : ℕ)).natAbs * 2 ^ (p - 1)
        ≤ 2 ^ k * 2 ^ (p - 1) := Nat.mul_le_mul_right _ herr
      _ = 2 ^ (p - 1) * 2 ^ k := Nat.mul_comm _ _
      _ ≤ q * 2 ^ k + r := hscale.1.resolve_left (by omega)

end NearestEven
