import Memuncached.C.Text
import Memuncached.Lib.NearestEven

/-!
# Integers in a `double`

The operations on `cache_value_real` for values that are integers: a `double`
holds 53 significant bits, and every operation rounds its exact result to
nearest, ties to even. Fractions and numbers from `2 ^ 1024` on do not occur.
-/

namespace Memuncached

open NearestEven

/-- `DBL_MANT_DIG`. -/
def mantDig : ℕ := 53

/-- An integer that a `double` holds. -/
structure Double where
  val : ℤ
  round_val : round mantDig val = val
  deriving DecidableEq

/-- The nearest `double`. -/
def Double.ofRounded (x : ℤ) : Double where
  val := round mantDig x
  round_val := round_round (by decide) x

@[simp] theorem Double.val_ofRounded (x : ℤ) : (Double.ofRounded x).val = round mantDig x := rfl

/-- The conversion to `int64_t` is exact where it is defined. -/
instance : CacheValueReal Double where
  ofInt := Double.ofRounded
  toInt64 := fun x => Int64.ofInt x.val
  add := fun a b => Double.ofRounded (a.val + b.val)
  sub := fun a b => Double.ofRounded (a.val - b.val)
  atof := fun s =>
    let (neg, s) := splitSign (s.dropWhile isSpace)
    let v : ℤ := digitsVal (s.takeWhile isDigit)
    Double.ofRounded (if neg then -v else v)
  fmtLf := fun x => fmtD x.val ++ ascii ".000000"

end Memuncached
