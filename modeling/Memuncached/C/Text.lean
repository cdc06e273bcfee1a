import Memuncached.C.Number

/-!
# Text comparison and `double` values

`strcasecmp`, and the operations the program performs on `cache_value_real`,
which is a `double`.
-/

namespace Memuncached

/-- `tolower` of the C locale. -/
def toLower (b : Byte) : Byte := if 65 ≤ b && b ≤ 90 then b + 32 else b

/-- `strcasecmp(a, b) == 0` on the bytes of two C strings. -/
def strcasecmpEq (a b : List Byte) : Bool := a.map toLower == b.map toLower

/-- The operations on `cache_value_real` (`double`) that the program uses. The
    model is generic in them: `ofInt` and `toInt64` are the conversions from
    and to integers, `atof` and `fmtLf` the library's text conversions
    (`fmtLf` is `%lf`). -/
class CacheValueReal (R : Type) where
  ofInt : ℤ → R
  toInt64 : R → Int64
  add : R → R → R
  sub : R → R → R
  atof : List Byte → R
  fmtLf : R → List Byte

/-- Six decimals of a fraction, `n` millionths. -/
def sixDigits (n : ℕ) : List Byte :=
  [n / 100000, n / 10000, n / 1000, n / 100, n / 10, n].map fun d => digitByte (d % 10)

/-- Exact numbers in place of `double`s: the same on numbers that a `double`
    holds exactly, written without an exponent. -/
instance : CacheValueReal ℚ where
  ofInt := fun n => n
  toInt64 := fun q => Int64.ofInt (if 0 ≤ q then ⌊q⌋ else ⌈q⌉)
  add := fun a b => a + b
  sub := fun a b => a - b
  atof := fun s =>
    let (neg, s) := splitSign (s.dropWhile isSpace)
    let rest := s.dropWhile isDigit
    let frac := if rest.headD 0 = 46 then rest.tail.takeWhile isDigit else []
    let v : ℚ := digitsVal (s.takeWhile isDigit) + digitsVal frac / 10 ^ frac.length
    if neg then -v else v
  fmtLf := fun q =>
    let n := ⌊|q| * 1000000 + 1 / 2⌋.toNat
    (if q < 0 then [45] else []) ++ decimalDigits (n / 1000000) ++ 46 :: sixDigits (n % 1000000)

/-- The number at the start of a text without sign. -/
def unsignedVal (s : List Byte) : ℚ :=
  let rest := s.dropWhile isDigit
  let frac := if rest.headD 0 = 46 then rest.tail.takeWhile isDigit else []
  digitsVal (s.takeWhile isDigit) + digitsVal frac / 10 ^ frac.length

theorem atof_rat {s num : List Byte} {neg : Bool}
    (h : splitSign (s.dropWhile isSpace) = (neg, num)) :
    (CacheValueReal.atof s : ℚ) = if neg then -unsignedVal num else unsignedVal num := by
  simp only [CacheValueReal.atof, h]
  rfl

theorem unsignedVal_nonneg (s : List Byte) : 0 ≤ unsignedVal s := by
  unfold unsignedVal
  positivity

end Memuncached
