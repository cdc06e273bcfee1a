import Memuncached.C.Number

/-!
# The number recognisers

`is_decimal_string` and `is_real_string` of `utils.h` against the numbers they
are there to recognise. Both pass over a sign and then look at the characters
one by one, so neither asks for a digit behind the sign, and the test for a
point in front of a real number is made before the sign is passed.

* `isDecimalString_iff` and `isRealString_iff`: what each of them accepts.
* `recognises_iff`: they accept exactly numbers unless the string is a sign
  alone, or a sign and a point with digits only behind it.
-/

namespace Memuncached

/-! ## Specification -/

/-- An optional sign. -/
def OptSign (sign : List Byte) : Prop := sign = [] ∨ sign = [43] ∨ sign = [45]

/-- An optional sign and at least one digit. -/
def DecimalNumber (str : List Byte) : Prop :=
  ∃ sign digits, str = sign ++ digits ∧ OptSign sign ∧ digits ≠ [] ∧
    ∀ b ∈ digits, isDigit b = true

/-- Nothing, or a point and any number of digits. -/
def OptFraction (frac : List Byte) : Prop :=
  frac = [] ∨ ∃ digits, frac = 46 :: digits ∧ ∀ b ∈ digits, isDigit b = true

/-- An optional sign, at least one digit and an optional fraction. -/
def RealNumber (str : List Byte) : Prop :=
  ∃ sign digits frac, str = sign ++ (digits ++ frac) ∧ OptSign sign ∧ digits ≠ [] ∧
    (∀ b ∈ digits, isDigit b = true) ∧ OptFraction frac

/-- The recognisers accept the string exactly if it is a number. -/
structure Recognises (str : List Byte) : Prop where
  decimal : isDecimalString str = true ↔ DecimalNumber str
  real : isRealString str = true ↔ RealNumber str

/-- A sign stands in front of something other than nothing, or a point and
    digits alone. -/
def SignedSafely (str : List Byte) : Prop :=
  ∀ sign rest, str = sign :: rest → sign = 43 ∨ sign = 45 →
    rest ≠ [] ∧ ∀ digits, rest = 46 :: digits → ∃ b ∈ digits, isDigit b = false

/-! ## What the loops accept -/

/-- Any number of digits and an optional fraction. -/
def DigitsFraction (str : List Byte) : Prop :=
  ∃ digits frac, str = digits ++ frac ∧ (∀ b ∈ digits, isDigit b = true) ∧ OptFraction frac

theorem digitsFraction_nil : DigitsFraction [] := ⟨[], [], rfl, by simp, Or.inl rfl⟩

theorem digitsFraction_cons (b : Byte) (str : List Byte) :
    DigitsFraction (b :: str) ↔
      (b = 46 ∧ ∀ x ∈ str, isDigit x = true) ∨ (isDigit b = true ∧ DigitsFraction str) := by
  constructor
  · rintro ⟨digits, frac, hsplit, hdigits, hfrac⟩
    cases digits with
    | nil =>
      rcases hfrac with rfl | ⟨ds, rfl, hds⟩
      · cases hsplit
      · rw [List.nil_append, List.cons.injEq] at hsplit
        exact Or.inl ⟨hsplit.1, hsplit.2 ▸ hds⟩
    | cons d digits =>
      rw [List.cons_append, List.cons.injEq] at hsplit
      obtain ⟨hd, htail⟩ := List.forall_mem_cons.mp hdigits
      exact Or.inr ⟨hsplit.1 ▸ hd, digits, frac, hsplit.2, htail, hfrac⟩
  · rintro (⟨rfl, hall⟩ | ⟨hb, digits, frac, rfl, hdigits, hfrac⟩)
    · exact ⟨[], 46 :: str, rfl, by simp, Or.inr ⟨str, rfl, hall⟩⟩
    · exact ⟨b :: digits, frac, rfl, List.forall_mem_cons.mpr ⟨hb, hdigits⟩, hfrac⟩

theorem not_isDigit_point : ¬ isDigit 46 = true := by decide

/-- Behind a point the loop of `is_real_string` accepts digits. -/
theorem isRealStringLoop_point (str : List Byte) :
    isRealStringLoop str true = true ↔ ∀ b ∈ str, isDigit b = true := by
  induction str with
  | nil => simp [isRealStringLoop]
  | cons b str ih =>
    rw [isRealStringLoop, List.forall_mem_cons]
    by_cases hpoint : b = 46
    · subst hpoint
      exact iff_of_false (by simp) fun h => not_isDigit_point h.1
    · by_cases hdigit : isDigit b = true
      · simp [hpoint, hdigit, ih]
      · simp [hpoint, hdigit]

/-- Before a point it accepts digits and an optional fraction. -/
theorem isRealStringLoop_iff (str : List Byte) :
    isRealStringLoop str false = true ↔ DigitsFraction str := by
  induction str with
  | nil => exact iff_of_true rfl digitsFraction_nil
  | cons b str ih =>
    rw [isRealStringLoop, digitsFraction_cons, ← ih, ← isRealStringLoop_point]
    by_cases hpoint : b = 46
    · subst hpoint
      simp [not_isDigit_point]
    · by_cases hdigit : isDigit b = true
      · simp [hpoint, hdigit]
      · simp [hpoint, hdigit]

/-! ## The sign -/

/-- What stands behind an optional sign. -/
theorem splitSign_append {sign w : List Byte} (hsign : OptSign sign)
    (hw : ∃ d ∈ w.head?, isDigit d = true) : (splitSign (sign ++ w)).2 = w := by
  obtain ⟨d, hd, hdigit⟩ := hw
  rcases hsign with rfl | rfl | rfl
  · cases w with
    | nil => cases hd
    | cons b w =>
      rw [List.head?_cons, Option.mem_some_iff] at hd
      rw [List.nil_append, splitSign_of_isDigit (hd ▸ hdigit)]
  · rfl
  · rfl

theorem exists_optSign (str : List Byte) :
    ∃ sign, OptSign sign ∧ str = sign ++ (splitSign str).2 := by
  unfold splitSign
  split
  · exact ⟨[45], Or.inr (Or.inr rfl), rfl⟩
  · exact ⟨[43], Or.inr (Or.inl rfl), rfl⟩
  · exact ⟨[], Or.inl rfl, rfl⟩

/-- The sign the recognisers pass over. -/
theorem splitSign_snd (b : Byte) (rest : List Byte) :
    (splitSign (b :: rest)).2 = if b == 43 || b == 45 then rest else b :: rest := by
  unfold splitSign
  split
  · rename_i heq
    rw [List.cons.injEq] at heq
    simp [heq.1, heq.2]
  · rename_i heq
    rw [List.cons.injEq] at heq
    simp [heq.1, heq.2]
  · rename_i h45 h43
    have hplus : b ≠ 43 := fun h => h43 rest (h ▸ rfl)
    have hminus : b ≠ 45 := fun h => h45 rest (h ▸ rfl)
    simp [hplus, hminus]

/-! ## What the recognisers accept -/

theorem isDecimalString_iff (str : List Byte) :
    isDecimalString str = true ↔ str ≠ [] ∧ ∀ b ∈ (splitSign str).2, isDigit b = true := by
  cases str with
  | nil => exact iff_of_false (by simp [isDecimalString]) fun h => h.1 rfl
  | cons b rest =>
    rw [isDecimalString, splitSign_snd, List.all_eq_true]
    exact (and_iff_right (List.cons_ne_nil b rest)).symm

theorem isRealString_iff (str : List Byte) :
    isRealString str = true ↔
      str ≠ [] ∧ str.head? ≠ some 46 ∧ DigitsFraction (splitSign str).2 := by
  cases str with
  | nil => exact iff_of_false (by simp [isRealString]) fun h => h.1 rfl
  | cons b rest =>
    rw [isRealString, splitSign_snd]
    by_cases hpoint : b = 46
    · subst hpoint
      exact iff_of_false (by simp) fun h => h.2.1 rfl
    · rw [if_neg (by simpa using hpoint), isRealStringLoop_iff]
      simp [hpoint]

theorem decimalNumber_iff (str : List Byte) :
    DecimalNumber str ↔
      (splitSign str).2 ≠ [] ∧ ∀ b ∈ (splitSign str).2, isDigit b = true := by
  constructor
  · rintro ⟨sign, digits, rfl, hsign, hne, hall⟩
    obtain ⟨d, ds, rfl⟩ := List.exists_cons_of_ne_nil hne
    rw [splitSign_append hsign ⟨d, rfl, hall d List.mem_cons_self⟩]
    exact ⟨hne, hall⟩
  · rintro ⟨hne, hall⟩
    obtain ⟨sign, hsign, hstr⟩ := exists_optSign str
    exact ⟨sign, _, hstr, hsign, hne, hall⟩

/-- A number starts with a digit behind its sign, a fraction with the point. -/
theorem realNumber_iff (str : List Byte) :
    RealNumber str ↔
      (∃ d ∈ (splitSign str).2.head?, isDigit d = true) ∧ DigitsFraction (splitSign str).2 := by
  constructor
  · rintro ⟨sign, digits, frac, rfl, hsign, hne, hall, hfrac⟩
    obtain ⟨d, ds, rfl⟩ := List.exists_cons_of_ne_nil hne
    have hhead : ∃ x ∈ (d :: ds ++ frac).head?, isDigit x = true :=
      ⟨d, rfl, hall d List.mem_cons_self⟩
    rw [splitSign_append hsign hhead]
    exact ⟨hhead, d :: ds, frac, rfl, hall, hfrac⟩
  · rintro ⟨⟨d, hd, hdigit⟩, digits, frac, hsplit, hall, hfrac⟩
    obtain ⟨sign, hsign, hstr⟩ := exists_optSign str
    refine ⟨sign, digits, frac, hsplit ▸ hstr, hsign, ?_, hall, hfrac⟩
    rintro rfl
    rw [hsplit, List.nil_append] at hd
    rcases hfrac with rfl | ⟨ds, rfl, -⟩
    · cases hd
    · rw [List.head?_cons, Option.mem_some_iff] at hd
      exact not_isDigit_point (hd ▸ hdigit)

/-! ## When they accept numbers only -/

/-- The two texts that are accepted and are no numbers have nothing, or a point
    and digits alone, behind a sign. -/
theorem digitsFraction_cases {w : List Byte} (h : DigitsFraction w) :
    (∃ d ∈ w.head?, isDigit d = true) ∨ w = [] ∨
      ∃ digits, w = 46 :: digits ∧ ∀ b ∈ digits, isDigit b = true := by
  cases w with
  | nil => exact Or.inr (Or.inl rfl)
  | cons b w =>
    rcases (digitsFraction_cons b w).mp h with ⟨rfl, hall⟩ | ⟨hb, -⟩
    · exact Or.inr (Or.inr ⟨w, rfl, hall⟩)
    · exact Or.inl ⟨b, rfl, hb⟩

/-- Behind the sign of a text that is signed safely there is something, and no
    point with digits alone behind it. -/
theorem SignedSafely.unsigned {str : List Byte} (h : SignedSafely str) (hne : str ≠ []) :
    (splitSign str).2 ≠ [] ∧ (str.head? ≠ some 46 →
      ∀ digits, (splitSign str).2 = 46 :: digits → ∃ b ∈ digits, isDigit b = false) := by
  obtain ⟨sign, hsign, hstr⟩ := exists_optSign str
  rcases hsign with rfl | rfl | rfl
  · rw [List.nil_append] at hstr
    refine ⟨hstr ▸ hne, fun hpoint digits hdigits => ?_⟩
    rw [hstr, hdigits] at hpoint
    exact absurd rfl hpoint
  · have hrest := h 43 _ hstr (Or.inl rfl)
    exact ⟨hrest.1, fun _ => hrest.2⟩
  · have hrest := h 45 _ hstr (Or.inr rfl)
    exact ⟨hrest.1, fun _ => hrest.2⟩

/-- A number is not empty and does not start with a point. -/
theorem ne_point_of_unsigned {str : List Byte}
    (h : ∃ d ∈ (splitSign str).2.head?, isDigit d = true) :
    str ≠ [] ∧ str.head? ≠ some 46 := by
  obtain ⟨d, hd, hdigit⟩ := h
  constructor
  · rintro rfl
    cases hd
  · intro hpoint
    obtain ⟨rest, rfl⟩ := List.head?_eq_some_iff.mp hpoint
    rw [splitSign_snd, if_neg (by decide), List.head?_cons, Option.mem_some_iff] at hd
    exact not_isDigit_point (hd ▸ hdigit)

theorem recognises_iff (str : List Byte) : Recognises str ↔ SignedSafely str := by
  constructor
  · rintro ⟨hdecimal, hreal⟩ sign rest rfl hsign
    have hrest : (splitSign (sign :: rest)).2 = rest := by
      rcases hsign with rfl | rfl <;> rfl
    rw [isDecimalString_iff, decimalNumber_iff, hrest] at hdecimal
    rw [isRealString_iff, realNumber_iff, hrest] at hreal
    have hpoint : (sign :: rest).head? ≠ some 46 := by
      rcases hsign with rfl | rfl <;> simp
    have hnumber : DigitsFraction rest → ∃ d ∈ rest.head?, isDigit d = true :=
      fun h => (hreal.mp ⟨List.cons_ne_nil sign rest, hpoint, h⟩).1
    constructor
    · rintro rfl
      exact (hdecimal.mp ⟨List.cons_ne_nil sign [], by simp⟩).1 rfl
    · rintro digits rfl
      by_contra hall
      push Not at hall
      have hdigits : ∀ b ∈ digits, isDigit b = true := fun b hb => by simpa using hall b hb
      obtain ⟨d, hd, hdigit⟩ := hnumber ((digitsFraction_cons 46 digits).mpr (Or.inl ⟨rfl, hdigits⟩))
      rw [List.head?_cons, Option.mem_some_iff] at hd
      exact not_isDigit_point (hd ▸ hdigit)
  · intro hsafe
    constructor
    · rw [isDecimalString_iff, decimalNumber_iff]
      refine and_congr_left fun _ => ⟨fun hne => (hsafe.unsigned hne).1, fun hne => ?_⟩
      rintro rfl
      exact hne rfl
    · rw [isRealString_iff, realNumber_iff]
      constructor
      · rintro ⟨hne, hpoint, hfrac⟩
        obtain ⟨hnonempty, hunsigned⟩ := hsafe.unsigned hne
        refine ⟨?_, hfrac⟩
        rcases digitsFraction_cases hfrac with hdigit | hempty | ⟨digits, hdigits, hall⟩
        · exact hdigit
        · exact absurd hempty hnonempty
        · obtain ⟨b, hb, hno⟩ := hunsigned hpoint digits hdigits
          rw [hall b hb] at hno
          cases hno
      · rintro ⟨hdigit, hfrac⟩
        obtain ⟨hne, hpoint⟩ := ne_point_of_unsigned hdigit
        exact ⟨hne, hpoint, hfrac⟩

/-- A plus sign alone passes for a number. -/
theorem not_recognises_plus :
    ¬ ∀ str : List Byte, (∀ b ∈ str, 0 < b ∧ b < 128) → Recognises str := by
  intro h
  have hchars : ∀ b ∈ ([43] : List Byte), 0 < b ∧ b < 128 := by
    intro b hb
    rw [List.mem_singleton.mp hb]
    decide
  have hplus := (h [43] hchars).decimal.mp rfl
  rw [decimalNumber_iff] at hplus
  exact hplus.1 rfl

end Memuncached
