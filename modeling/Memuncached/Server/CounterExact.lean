import Memuncached.C.Double
import Memuncached.Server.Counter

/-!
# Counting in a `double`

INC and DEC by a whole offset on a decimal, which goes through a `double` of 53
significant bits and back.

* `counter_exact_iff`: the new number is exact if it has at most 53 significant
  bits and takes up the errors with which the two operands are rounded, only.
-/

namespace Memuncached.Server

open NearestEven

/-- The operation on integers. -/
def CounterOp.onInt : CounterOp → ℤ → ℤ → ℤ
  | .inc => (· + ·)
  | .dec => (· - ·)

/-- The OFFSETs that are whole numbers. -/
def IntegerOffset (offset : Option (List Byte)) : Prop :=
  ∀ s ∈ offset, s.headD 0 ≠ 45 ∧ isDecimalString s = true

/-- The number such an OFFSET denotes. -/
def offsetNumber : Option (List Byte) → ℕ
  | none => 1
  | some s => decimalValue s

theorem vOffset_integer {offset : Option (List Byte)} (h : IntegerOffset offset) :
    (vOffset offset : Double) = Double.ofRounded (offsetNumber offset) := by
  cases offset with
  | none => rfl
  | some s =>
    obtain ⟨hneg, hdec⟩ := h s rfl
    obtain ⟨hsplit, htake⟩ := splitSign_decimalString hdec hneg
    show CacheValueReal.atof s = _
    simp only [CacheValueReal.atof, hsplit, htake]
    rfl

/-- The operation on two rounded operands, rounded. -/
theorem apply_ofRounded (op : CounterOp) (x y : ℤ) :
    (op.apply (Double.ofRounded x) (Double.ofRounded y)).val =
      round mantDig (op.onInt x y + op.onInt (error mantDig x) (error mantDig y)) := by
  have hx := round_eq_add_error mantDig x
  have hy := round_eq_add_error mantDig y
  cases op with
  | inc =>
    show round mantDig (round mantDig x + round mantDig y) = _
    congr 1
    show _ = x + y + (error mantDig x + error mantDig y)
    omega
  | dec =>
    show round mantDig (round mantDig x - round mantDig y) = _
    congr 1
    show _ = x - y + (error mantDig x - error mantDig y)
    omega

/-- The exact result has at most 53 significant bits and absorbs the errors of
    the operands. -/
def ExactInDouble (op : CounterOp) (x y : ℤ) : Prop :=
  Representable mantDig (op.onInt x y) ∧
    AbsorbsError mantDig (op.onInt x y) (op.onInt (error mantDig x) (error mantDig y))

/-- The rounded result is close enough to the exact one that no other number
    converts to the same `int64_t`. -/
theorem toInt_round_eq_iff {op : CounterOp} {x y : ℤ} (hx0 : -2 ^ 63 ≤ x) (hx1 : x < 2 ^ 63)
    (hmin : -2 ^ 63 ≤ op.onInt x y) (hmax : op.onInt x y < 2 ^ 63) :
    (Int64.ofInt (round mantDig
        (op.onInt x y + op.onInt (error mantDig x) (error mantDig y)))).toInt =
      op.onInt x y ↔ ExactInDouble op x y := by
  have hp : 0 < mantDig := by decide
  have hx := natAbs_error_le hp x
  have hy := natAbs_error_le hp y
  have hround := natAbs_error_le hp (op.onInt x y + op.onInt (error mantDig x) (error mantDig y))
  have hsum := round_eq_add_error mantDig
    (op.onInt x y + op.onInt (error mantDig x) (error mantDig y))
  have hyle : y.natAbs ≤ 2 ^ 64 := by
    cases op with
    | inc =>
      have h0 : -2 ^ 63 ≤ x + y := hmin
      have h1 : x + y < 2 ^ 63 := hmax
      omega
    | dec =>
      have h0 : -2 ^ 63 ≤ x - y := hmin
      have h1 : x - y < 2 ^ 63 := hmax
      omega
  have herr : (op.onInt (error mantDig x) (error mantDig y)).natAbs ≤
      (error mantDig x).natAbs + (error mantDig y).natAbs := by
    cases op with
    | inc => exact Int.natAbs_add_le _ _
    | dec => exact Int.natAbs_sub_le _ _
  unfold ExactInDouble
  rw [← round_add_eq_iff hp]
  have hbits : mantDig - 1 = 52 := rfl
  rw [hbits] at hx hy hround
  generalize op.onInt (error mantDig x) (error mantDig y) = e at *
  generalize op.onInt x y = z at *
  generalize error mantDig (z + e) = e' at *
  generalize round mantDig (z + e) = w at *
  constructor
  · intro h
    have hsize : (Int64.size : ℤ) = 2 ^ 64 := rfl
    rw [Int64.toInt_ofInt, Int.bmod_def, hsize] at h
    split_ifs at h <;> omega
  · intro h
    rw [h, Int64.toInt_ofInt_of_le hmin hmax]

/-- The command leaves the exact result `z` in the decimal `v`. -/
def CountsExactly (op : CounterOp) (t : HashTable Double) (key : List Byte)
    (offset initial : Option (List Byte)) (v : CacheValue Double) (z : ℤ) : Prop :=
  ∃ r : Int64, hashTableGet (op.exec key offset initial t) key = some { v with value := .decimal r } ∧
    r.toInt = z

variable {t : HashTable Double} {key : List Byte} {v : CacheValue Double}

/-- What the command leaves in a decimal. -/
theorem hashTableGet_counter_decimal (op : CounterOp) (hv : hashTableGet t key = some v)
    (htype : v.type = cacheValueDecimal) {d : Int64} (hvalue : v.value = .decimal d)
    {offset : Option (List Byte)} (hoffset : IntegerOffset offset) (initial : Option (List Byte)) :
    hashTableGet (op.exec key offset initial t) key =
      some { v with
        value := .decimal (Int64.ofInt (round mantDig
          (op.onInt d.toInt (offsetNumber offset) +
            op.onInt (error mantDig d.toInt) (error mantDig (offsetNumber offset))))) } := by
  have hs : v.type ≠ cacheValueString := by
    rw [htype]
    decide
  rw [hashTableGet_counter, hv, counterValue, if_neg hs, vOffset_integer hoffset,
    ← apply_ofRounded]
  obtain ⟨k, ty, value, len⟩ := v
  dsimp only at htype hvalue
  subst htype hvalue
  rfl

/-- After INC or DEC by a whole offset the number is the exact result if that
    has at most 53 significant bits and absorbs the errors of the operands,
    only. -/
theorem countsExactly_iff (op : CounterOp) (hv : hashTableGet t key = some v)
    (htype : v.type = cacheValueDecimal) {d : Int64} (hvalue : v.value = .decimal d)
    {offset : Option (List Byte)} (hoffset : IntegerOffset offset) (initial : Option (List Byte))
    (hmin : int64Min ≤ op.onInt d.toInt (offsetNumber offset))
    (hmax : op.onInt d.toInt (offsetNumber offset) ≤ int64Max) :
    CountsExactly op t key offset initial v (op.onInt d.toInt (offsetNumber offset)) ↔
      ExactInDouble op d.toInt (offsetNumber offset) := by
  rw [← toInt_round_eq_iff (Int64.le_toInt d) (Int64.toInt_lt d) hmin
    (by unfold int64Max at hmax; omega)]
  have hget := hashTableGet_counter_decimal op hv htype hvalue hoffset initial
  constructor
  · intro ⟨r, hr, hexact⟩
    rw [hget, Option.some.injEq] at hr
    injection hr with _ _ hr _
    injection hr with hr
    rw [hr]
    exact hexact
  · intro hexact
    exact ⟨_, hget, hexact⟩

/-- A table with `2 ^ 53` under `a`. -/
def tableWithLarge : HashTable Double :=
  (hashTableSet (hashTableCreate Double 1 Nat.one_pos) (ascii "a") cacheValueDecimal
    (.decimal 9007199254740992) 0).2

def large : CacheValue Double where
  key := ascii "a"
  type := cacheValueDecimal
  value := .decimal 9007199254740992
  length := 0

theorem tableWithLarge_reachable : Reachable tableWithLarge :=
  Reachable.call (.set (ascii "a") cacheValueDecimal (.decimal 9007199254740992) 0)
    (Reachable.create 1 Nat.one_pos) (Or.inl ⟨rfl, rfl⟩)

/-- DEC takes it to `2 ^ 53 - 1`. -/
theorem countsExactly_dec :
    CountsExactly .dec tableWithLarge (ascii "a") none none large 9007199254740991 := by
  refine (countsExactly_iff .dec (v := large) (d := 9007199254740992) rfl rfl rfl
    (by simp [IntegerOffset]) none (by decide) (by decide)).mpr ?_
  unfold ExactInDouble Representable AbsorbsError
  decide

/-- INC leaves it at `2 ^ 53`. -/
theorem not_countsExactly_inc :
    Reachable tableWithLarge ∧ hashTableGet tableWithLarge (ascii "a") = some large ∧
      ¬ CountsExactly .inc tableWithLarge (ascii "a") none none large 9007199254740993 := by
  refine ⟨tableWithLarge_reachable, rfl, ?_⟩
  rintro ⟨r, hr, hexact⟩
  rw [hashTableGet_counter, Option.some.injEq] at hr
  have hsame : (counterValue .inc (ascii "a") none none (some large)).value =
      .decimal 9007199254740992 := by decide
  have hvalue := congrArg CacheValue.value hr
  rw [show hashTableGet tableWithLarge (ascii "a") = some large from rfl, hsame] at hvalue
  injection hvalue with hvalue
  rw [← hvalue] at hexact
  exact absurd hexact (by decide)

end Memuncached.Server
