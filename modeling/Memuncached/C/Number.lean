import Memuncached.C.Bytes
import Memuncached.Lib.Runs

/-!
# Numbers as text

The conversions between numbers and text that the program takes from the C
library (`strtol` behind `atoi`, `atol` and `atoll`; `%d` and `%ld`) and its
own recognisers `is_decimal_string` and `is_real_string` of `utils.h`.

* `strtol_fmtD`: parsing what `%ld` prints gives the number back, for every
  64-bit number and whatever non-digit follows.
-/

namespace Memuncached

open Runs

/-! ## Integer ranges -/

/-- `INT_MAX`. -/
def intMax : ℤ := 2147483647

/-- `INT64_MIN` and `INT64_MAX`. -/
def int64Min : ℤ := -9223372036854775808
def int64Max : ℤ := 9223372036854775807

/-- The conversion of a `long` to an `int`: the low 32 bits. -/
def toInt (x : ℤ) : ℤ := x.bmod (2 ^ 32)

theorem toInt_of_range {x : ℤ} (h0 : -2147483648 ≤ x) (h1 : x ≤ intMax) : toInt x = x := by
  unfold intMax at h1
  exact Int.bmod_eq_of_le (by norm_num; omega) (by norm_num; omega)

/-! ## Printing -/

/-- The byte of a decimal digit. -/
def digitByte (d : ℕ) : Byte := (48 + d).toUInt8

/-- `%u` of a non-negative number. -/
def decimalDigits (n : ℕ) : List Byte := (Nat.toDigits 10 n).map fun c => c.toNat.toUInt8

/-- `%d` and `%ld`. -/
def fmtD (v : ℤ) : List Byte :=
  if v < 0 then 45 :: decimalDigits v.natAbs else decimalDigits v.natAbs

/-! ## Parsing -/

/-- `isdigit` of the C locale. -/
def isDigit (b : Byte) : Bool := 48 ≤ b && b ≤ 57

/-- `isspace` of the C locale. -/
def isSpace (b : Byte) : Bool := b == 32 || (9 ≤ b && b ≤ 13)

/-- The number a digit string denotes. -/
def digitsVal (s : List Byte) : ℕ := s.foldl (fun v b => 10 * v + (b.toNat - 48)) 0

/-- The optional sign in front of a number and what follows it. -/
def splitSign : List Byte → Bool × List Byte
  | 45 :: s => (true, s)
  | 43 :: s => (false, s)
  | s => (false, s)

/-- `strtol(s, NULL, 10)`: white space, an optional sign, the longest run of
    digits; a value outside `long` is clamped. -/
def strtol (s : List Byte) : ℤ :=
  let (neg, s) := splitSign (s.dropWhile isSpace)
  let v : ℤ := digitsVal (s.takeWhile isDigit)
  if neg then max int64Min (-v) else min int64Max v

/-- `atoi`, and an `atol` whose result is stored in an `int`. -/
def atoi (s : List Byte) : ℤ := toInt (strtol s)

/-- `atoll`. -/
def atoll (s : List Byte) : Int64 := Int64.ofInt (strtol s)

/-- `is_decimal_string` (utils.h, lines 31-51) on the bytes of a C string. -/
def isDecimalString (str : List Byte) : Bool :=
  match str with
  | [] => false
  | b :: rest => (if b == 43 || b == 45 then rest else b :: rest).all isDigit

/-- The loop of `is_real_string` (utils.h, lines 67-79). -/
def isRealStringLoop : List Byte → (dot : Bool) → Bool
  | [], _ => true
  | b :: rest, dot =>
    if b == 46 then if dot then false else isRealStringLoop rest true
    else if !isDigit b then false
    else isRealStringLoop rest dot

/-- `is_real_string` (utils.h, lines 53-82) on the bytes of a C string. -/
def isRealString (str : List Byte) : Bool :=
  match str with
  | [] => false
  | b :: rest =>
    if b == 46 then false
    else isRealStringLoop (if b == 43 || b == 45 then rest else b :: rest) false

/-! ## Round trip -/

theorem digitByte_toNat {d : ℕ} (h : d < 10) : (digitByte d).toNat = 48 + d := by
  unfold digitByte
  rw [Nat.toUInt8_eq, UInt8.toNat_ofNat']
  omega

theorem isDigit_digitByte {d : ℕ} (h : d < 10) : isDigit (digitByte d) = true := by
  have := digitByte_toNat h
  simp only [isDigit, Bool.and_eq_true, decide_eq_true_eq, UInt8.le_iff_toNat_le, this]
  constructor
  · show 48 ≤ 48 + d
    omega
  · show 48 + d ≤ 57
    omega

theorem decimalDigits_eq (n : ℕ) :
    decimalDigits n =
      if n < 10 then [digitByte n] else decimalDigits (n / 10) ++ [digitByte (n % 10)] := by
  have hdigit : ∀ d < 10, (Nat.digitChar d).toNat.toUInt8 = digitByte d := by decide
  unfold decimalDigits
  rw [Nat.toDigits_eq_if (by norm_num)]
  split_ifs with h
  · simp [hdigit n h]
  · simp [hdigit (n % 10) (Nat.mod_lt _ (by norm_num))]

theorem decimalDigits_ne_nil (n : ℕ) : decimalDigits n ≠ [] := by
  rw [decimalDigits_eq]
  split_ifs <;> simp

theorem isDigit_of_mem_decimalDigits (n : ℕ) : ∀ b ∈ decimalDigits n, isDigit b = true := by
  induction n using Nat.strong_induction_on with
  | _ n ih =>
    intro b hb
    rw [decimalDigits_eq] at hb
    split_ifs at hb with h
    · rw [List.mem_singleton.mp hb]
      exact isDigit_digitByte h
    · rcases List.mem_append.mp hb with hb | hb
      · exact ih (n / 10) (by omega) b hb
      · rw [List.mem_singleton.mp hb]
        exact isDigit_digitByte (Nat.mod_lt _ (by norm_num))

/-- A number below `10 ^ k` has at most `k` digits. -/
theorem length_decimalDigits_le {k n : ℕ} (h : n < 10 ^ (k + 1)) :
    (decimalDigits n).length ≤ k + 1 := by
  induction k generalizing n with
  | zero =>
    rw [decimalDigits_eq, if_pos (by simpa using h)]
    simp
  | succ k ih =>
    rw [decimalDigits_eq]
    split_ifs
    · simp
    · have hdiv : n / 10 < 10 ^ (k + 1) := by
        rw [pow_succ] at h
        omega
      rw [List.length_append, List.length_singleton]
      exact Nat.succ_le_succ (ih hdiv)

/-- A printed number consists of digits, behind a sign. -/
theorem mem_fmtD {v : ℤ} {b : Byte} (h : b ∈ fmtD v) : b = 45 ∨ isDigit b = true := by
  unfold fmtD at h
  split_ifs at h
  · rcases List.mem_cons.mp h with rfl | h
    · exact Or.inl rfl
    · exact Or.inr (isDigit_of_mem_decimalDigits _ b h)
  · exact Or.inr (isDigit_of_mem_decimalDigits _ b h)

/-- A 64-bit number takes at most 20 bytes. -/
theorem length_fmtD_le (v : Int64) : (fmtD v.toInt).length ≤ 20 := by
  have h0 : -9223372036854775808 ≤ v.toInt := Int64.le_toInt v
  have h1 : v.toInt < 9223372036854775808 := Int64.toInt_lt v
  have hdigits : (decimalDigits v.toInt.natAbs).length ≤ 19 :=
    length_decimalDigits_le (by norm_num; omega)
  unfold fmtD
  split_ifs
  · rw [List.length_cons]
    omega
  · omega

theorem digitsVal_append_singleton (s : List Byte) (b : Byte) :
    digitsVal (s ++ [b]) = 10 * digitsVal s + (b.toNat - 48) := by
  simp [digitsVal, List.foldl_append]

theorem digitsVal_decimalDigits (n : ℕ) : digitsVal (decimalDigits n) = n := by
  induction n using Nat.strong_induction_on with
  | _ n ih =>
    rw [decimalDigits_eq]
    split_ifs with h
    · simp [digitsVal, digitByte_toNat h]
    · rw [digitsVal_append_singleton, ih (n / 10) (by omega),
        digitByte_toNat (Nat.mod_lt _ (by norm_num))]
      omega

theorem not_isSpace_of_isDigit {b : Byte} (h : isDigit b = true) : isSpace b = false := by
  simp only [isDigit, Bool.and_eq_true, decide_eq_true_eq, UInt8.le_iff_toNat_le] at h
  have h48 : (48 : Byte).toNat = 48 := rfl
  rw [h48] at h
  have h1 : (b == 32) = false := by
    rw [beq_eq_false_iff_ne]
    rintro rfl
    exact absurd h.1 (by decide)
  have h2 : decide (b ≤ 13) = false := by
    rw [decide_eq_false_iff_not, UInt8.le_iff_toNat_le]
    have h13 : (13 : Byte).toNat = 13 := rfl
    omega
  simp [isSpace, h1, h2]

theorem splitSign_of_isDigit {b : Byte} {s : List Byte} (h : isDigit b = true) :
    splitSign (b :: s) = (false, b :: s) := by
  unfold splitSign
  split
  · rename_i heq
    cases heq
    exact absurd h (by decide)
  · rename_i heq
    cases heq
    exact absurd h (by decide)
  · rfl

/-- The longest run of digits at the start of printed digits and a non-digit. -/
theorem takeWhile_isDigit_decimalDigits (n : ℕ) {rest : List Byte}
    (hrest : ∀ b ∈ rest.head?, isDigit b = false) :
    (decimalDigits n ++ rest).takeWhile isDigit = decimalDigits n :=
  takeWhile_run (isDigit_of_mem_decimalDigits n) hrest

/-- A text that starts with a digit has neither white space nor a sign there. -/
theorem splitSign_digits {w rest : List Byte} (hne : w ≠ []) (hw : ∀ b ∈ w, isDigit b = true) :
    splitSign ((w ++ rest).dropWhile isSpace) = (false, w ++ rest) := by
  obtain ⟨d, ds, rfl⟩ := List.exists_cons_of_ne_nil hne
  have hdig : isDigit d = true := hw d List.mem_cons_self
  rw [List.cons_append, List.dropWhile_cons_of_neg (by simp [not_isSpace_of_isDigit hdig])]
  exact splitSign_of_isDigit hdig

/-- `strtol` of digits is the number they denote, clamped to `long`. -/
theorem strtol_digits {w rest : List Byte} (hne : w ≠ []) (hw : ∀ b ∈ w, isDigit b = true)
    (hrest : ∀ b ∈ rest.head?, isDigit b = false) :
    strtol (w ++ rest) = min int64Max (digitsVal w) := by
  unfold strtol
  rw [splitSign_digits hne hw]
  simp only [takeWhile_run hw hrest]
  rfl

theorem dropWhile_append_stop {p : Byte → Bool} {b : Byte} (hb : p b = false)
    (u rest : List Byte) : (u ++ b :: rest).dropWhile p = u.dropWhile p ++ b :: rest := by
  induction u with
  | nil => exact List.dropWhile_cons_of_neg (by simp [hb])
  | cons a u ih =>
    by_cases ha : p a = true
    · rw [List.cons_append, List.dropWhile_cons_of_pos ha, List.dropWhile_cons_of_pos ha, ih]
    · rw [List.cons_append, List.dropWhile_cons_of_neg ha, List.dropWhile_cons_of_neg ha,
        List.cons_append]

theorem takeWhile_append_stop {p : Byte → Bool} {b : Byte} (hb : p b = false)
    (u rest : List Byte) : (u ++ b :: rest).takeWhile p = u.takeWhile p := by
  induction u with
  | nil => exact List.takeWhile_cons_of_neg (by simp [hb])
  | cons a u ih =>
    by_cases ha : p a = true
    · rw [List.cons_append, List.takeWhile_cons_of_pos ha, List.takeWhile_cons_of_pos ha, ih]
    · rw [List.cons_append, List.takeWhile_cons_of_neg ha, List.takeWhile_cons_of_neg ha]

/-- `strtol` reads a text up to its terminator. -/
theorem strtol_terminated (u rest : List Byte) : strtol (u ++ 0 :: rest) = strtol u := by
  have hsign : ∀ v : List Byte, splitSign (v ++ 0 :: rest) =
      ((splitSign v).1, (splitSign v).2 ++ 0 :: rest) := by
    intro v
    cases v with
    | nil => rfl
    | cons b v =>
      unfold splitSign
      split <;> simp_all
  unfold strtol
  rw [dropWhile_append_stop rfl, hsign]
  simp only [takeWhile_append_stop (rfl : isDigit 0 = false)]

theorem atoi_terminated (u rest : List Byte) : atoi (u ++ 0 :: rest) = atoi u := by
  rw [atoi, strtol_terminated, atoi]

/-- `strtol` of printed digits is the number, clamped to `long`. -/
theorem strtol_decimalDigits (n : ℕ) {rest : List Byte}
    (hrest : ∀ b ∈ rest.head?, isDigit b = false) :
    strtol (decimalDigits n ++ rest) = min int64Max n := by
  rw [strtol_digits (decimalDigits_ne_nil n) (isDigit_of_mem_decimalDigits n) hrest,
    digitsVal_decimalDigits]

/-- `n` digits denote less than `10 ^ n`. -/
theorem digitsVal_lt {w : List Byte} (hw : ∀ b ∈ w, isDigit b = true) :
    digitsVal w < 10 ^ w.length := by
  induction w using List.reverseRecOn with
  | nil => simp [digitsVal]
  | append_singleton w b ih =>
    have hb : b.toNat - 48 ≤ 9 := by
      have hdig := hw b (by simp)
      simp only [isDigit, Bool.and_eq_true, decide_eq_true_eq, UInt8.le_iff_toNat_le] at hdig
      have h57 : (57 : Byte).toNat = 57 := rfl
      omega
    have hlt := ih fun x hx => hw x (by simp [hx])
    rw [digitsVal_append_singleton, List.length_append, List.length_singleton, pow_succ]
    omega

/-- The number a decimal string without a minus sign denotes. -/
def decimalValue (s : List Byte) : ℕ := digitsVal (splitSign s).2

/-- The sign and the digits of such a string. -/
theorem splitSign_decimalString {s : List Byte} (h : isDecimalString s = true)
    (hneg : s.headD 0 ≠ 45) :
    splitSign (s.dropWhile isSpace) = (false, (splitSign s).2) ∧
      (splitSign s).2.takeWhile isDigit = (splitSign s).2 := by
  have htake : ∀ t : List Byte, t.all isDigit = true → t.takeWhile isDigit = t := by
    intro t ht
    exact List.takeWhile_eq_self_iff.mpr (List.all_eq_true.mp ht)
  cases s with
  | nil => simp [isDecimalString] at h
  | cons b rest =>
    have hb : b ≠ 45 := hneg
    by_cases hplus : b = 43
    · subst hplus
      have hrest : rest.all isDigit = true := by simpa [isDecimalString] using h
      have hspace : (43 :: rest).dropWhile isSpace = 43 :: rest :=
        List.dropWhile_cons_of_neg (by decide)
      rw [hspace]
      exact ⟨rfl, htake rest hrest⟩
    · have hall : (b :: rest).all isDigit = true := by simpa [isDecimalString, hplus, hb] using h
      have hdigit : isDigit b = true := List.all_eq_true.mp hall b List.mem_cons_self
      have hspace : (b :: rest).dropWhile isSpace = b :: rest :=
        List.dropWhile_cons_of_neg (by simp [not_isSpace_of_isDigit hdigit])
      rw [hspace, splitSign_of_isDigit hdigit]
      exact ⟨rfl, htake _ hall⟩

/-- `strtol` of such a string is the number it denotes, clamped to `long`. -/
theorem strtol_decimalString {s : List Byte} (h : isDecimalString s = true)
    (hneg : s.headD 0 ≠ 45) : strtol s = min int64Max (decimalValue s) := by
  obtain ⟨hsplit, htake⟩ := splitSign_decimalString h hneg
  unfold strtol decimalValue
  rw [hsplit]
  simp only [htake]
  rfl

theorem decimalValue_decimalDigits (n : ℕ) : decimalValue (decimalDigits n) = n := by
  obtain ⟨d, ds, hd⟩ := List.exists_cons_of_ne_nil (decimalDigits_ne_nil n)
  have hdig : isDigit d = true := isDigit_of_mem_decimalDigits n d (by rw [hd]; simp)
  rw [decimalValue, hd, splitSign_of_isDigit hdig, ← hd, digitsVal_decimalDigits]

theorem isDecimalString_decimalDigits (n : ℕ) : isDecimalString (decimalDigits n) = true := by
  have hall : (decimalDigits n).all isDigit = true :=
    List.all_eq_true.mpr (isDigit_of_mem_decimalDigits n)
  obtain ⟨d, ds, hd⟩ := List.exists_cons_of_ne_nil (decimalDigits_ne_nil n)
  have hdig : isDigit d = true := isDigit_of_mem_decimalDigits n d (by rw [hd]; simp)
  have h43 : d ≠ 43 := by
    rintro rfl
    exact absurd hdig (by decide)
  have h45 : d ≠ 45 := by
    rintro rfl
    exact absurd hdig (by decide)
  rw [hd] at hall ⊢
  simpa [isDecimalString, h43, h45] using hall

/-- `strtol` undoes `%ld`. -/
theorem strtol_fmtD {v : ℤ} (h0 : int64Min ≤ v) (h1 : v ≤ int64Max) {rest : List Byte}
    (hrest : ∀ b ∈ rest.head?, isDigit b = false) : strtol (fmtD v ++ rest) = v := by
  unfold fmtD
  split_ifs with hneg
  · have hspace : (45 :: decimalDigits v.natAbs ++ rest).dropWhile isSpace =
        45 :: (decimalDigits v.natAbs ++ rest) := by
      rw [List.cons_append, List.dropWhile_cons_of_neg (by decide)]
    unfold strtol
    rw [hspace]
    simp only [splitSign, takeWhile_isDigit_decimalDigits _ hrest, digitsVal_decimalDigits]
    rw [if_pos trivial]
    omega
  · rw [strtol_decimalDigits _ hrest]
    omega

/-- `atoll` undoes `%ld` on 64-bit numbers. -/
theorem atoll_fmtD (v : Int64) {rest : List Byte}
    (hrest : ∀ b ∈ rest.head?, isDigit b = false) : atoll (fmtD v.toInt ++ rest) = v := by
  have h0 : int64Min ≤ v.toInt := Int64.le_toInt v
  have h1 : v.toInt < 9223372036854775808 := Int64.toInt_lt v
  rw [atoll, strtol_fmtD h0 (by unfold int64Max; omega) hrest, Int64.ofInt_toInt]

end Memuncached
