import Memuncached.Server.Counter

/-!
# The text of INITIAL

The numbers that INITIAL can denote (`Numeral`) and what INC and DEC store for
them under an absent key, with exact numbers in place of `double`s.

* `atof_text`, `strtol_text`: the library's conversions of the text of a numeral.
* `storesInitial_iff`: the number is stored as the type its text has unless a
  point stands anywhere but in the second place.
-/

namespace Memuncached.Server

/-! ## Numerals -/

/-- `[+-]?digits` with an optional fraction `.digits`; `sign` is whether the
    sign is a minus. -/
structure Numeral where
  sign : Option Bool
  whole : List Byte
  fraction : Option (List Byte)
  whole_ne_nil : whole ≠ []
  whole_digits : ∀ b ∈ whole, isDigit b = true
  fraction_digits : ∀ f ∈ fraction, ∀ b ∈ f, isDigit b = true

namespace Numeral

def signText (n : Numeral) : List Byte :=
  match n.sign with
  | none => []
  | some false => [43]
  | some true => [45]

def fractionText (n : Numeral) : List Byte :=
  match n.fraction with
  | none => []
  | some f => 46 :: f

def text (n : Numeral) : List Byte := n.signText ++ (n.whole ++ n.fractionText)

/-- The part behind the point. -/
def fractionValue (n : Numeral) : ℚ :=
  match n.fraction with
  | none => 0
  | some f => digitsVal f / 10 ^ f.length

/-- The number the text denotes. -/
def value (n : Numeral) : ℚ :=
  let v := digitsVal n.whole + n.fractionValue
  if n.sign = some true then -v else v

/-- The number that the text without its fraction denotes. -/
def integer (n : Numeral) : ℤ :=
  if n.sign = some true then -(digitsVal n.whole : ℤ) else digitsVal n.whole

theorem value_eq_integer (n : Numeral) (h : n.fraction = none) : n.value = n.integer := by
  unfold value integer fractionValue
  rw [h]
  split_ifs <;> simp

theorem exists_whole (n : Numeral) : ∃ d ds, n.whole = d :: ds ∧ isDigit d = true := by
  obtain ⟨d, ds, h⟩ := List.exists_cons_of_ne_nil n.whole_ne_nil
  exact ⟨d, ds, h, n.whole_digits d (by rw [h]; exact List.mem_cons_self)⟩

theorem dropWhile_isSpace_text (n : Numeral) : n.text.dropWhile isSpace = n.text := by
  obtain ⟨d, ds, hwhole, hd⟩ := n.exists_whole
  have hnum : (n.whole ++ n.fractionText).dropWhile isSpace = n.whole ++ n.fractionText := by
    rw [hwhole, List.cons_append]
    exact List.dropWhile_cons_of_neg (by simp [not_isSpace_of_isDigit hd])
  unfold text signText
  rcases n.sign with _ | _ | _
  · exact hnum
  · exact List.dropWhile_cons_of_neg (by decide)
  · exact List.dropWhile_cons_of_neg (by decide)

theorem splitSign_text (n : Numeral) :
    splitSign n.text = (n.sign == some true, n.whole ++ n.fractionText) := by
  obtain ⟨d, ds, hwhole, hd⟩ := n.exists_whole
  unfold text signText
  rcases n.sign with _ | _ | _
  · rw [hwhole]
    exact splitSign_of_isDigit hd
  · rfl
  · rfl

theorem fractionText_head (n : Numeral) : ∀ b ∈ n.fractionText.head?, isDigit b = false := by
  unfold fractionText
  intro b hb
  cases h : n.fraction with
  | none => simp [h] at hb
  | some f =>
    rw [h] at hb
    simp only [List.head?_cons, Option.mem_def, Option.some.injEq] at hb
    rw [← hb]
    rfl

theorem takeWhile_dropWhile_num (n : Numeral) :
    (n.whole ++ n.fractionText).takeWhile isDigit = n.whole ∧
      (n.whole ++ n.fractionText).dropWhile isDigit = n.fractionText := by
  rw [List.takeWhile_append_of_pos n.whole_digits, List.dropWhile_append_of_pos n.whole_digits]
  have hhead := n.fractionText_head
  generalize n.fractionText = rest at hhead
  cases rest with
  | nil => simp
  | cons b rest =>
    have hb := hhead b rfl
    simp [hb]

/-- `strtol` reads the digits before the point. -/
theorem strtol_text {n : Numeral} (hmin : int64Min ≤ n.integer) (hmax : n.integer ≤ int64Max) :
    strtol n.text = n.integer := by
  unfold strtol
  rw [n.dropWhile_isSpace_text, n.splitSign_text]
  dsimp only
  rw [n.takeWhile_dropWhile_num.1]
  unfold integer at *
  by_cases hneg : n.sign = some true
  · rw [if_pos hneg] at hmin ⊢
    rw [hneg, if_pos (by rfl), max_eq_right hmin]
  · rw [if_neg hneg] at hmax ⊢
    rw [if_neg (by simpa using hneg), min_eq_right hmax]

theorem unsignedVal_num (n : Numeral) :
    unsignedVal (n.whole ++ n.fractionText) = digitsVal n.whole + n.fractionValue := by
  unfold unsignedVal
  rw [n.takeWhile_dropWhile_num.1, n.takeWhile_dropWhile_num.2]
  unfold fractionText fractionValue
  cases h : n.fraction with
  | none => simp [digitsVal]
  | some f =>
    have hf : f.takeWhile isDigit = f := List.takeWhile_eq_self_iff.mpr (n.fraction_digits f h)
    simp [hf]

/-- `atof` reads the whole text. -/
theorem atof_text (n : Numeral) : (CacheValueReal.atof n.text : ℚ) = n.value := by
  have hsplit : splitSign (n.text.dropWhile isSpace) =
      (n.sign == some true, n.whole ++ n.fractionText) := by
    rw [n.dropWhile_isSpace_text, n.splitSign_text]
  rw [atof_rat hsplit, n.unsignedVal_num]
  unfold value
  by_cases hneg : n.sign = some true
  · rw [hneg]
    rfl
  · rw [if_neg hneg, if_neg (by simpa using hneg)]

/-! ## The choice of the type -/

/-- The point is the second character. -/
def PointSecond (n : Numeral) : Prop := n.sign = none ∧ n.whole.length = 1

theorem initialIsDecimal_text (n : Numeral) :
    initialIsDecimal (some n.text) = false ↔ n.fraction ≠ none ∧ n.PointSecond := by
  obtain ⟨d, ds, hwhole, hd⟩ := n.exists_whole
  have hdigit : ∀ b, isDigit b = true → b ≠ 0 ∧ b ≠ 46 := by
    intro b hb
    constructor
    · rintro rfl
      exact absurd hb (by decide)
    · rintro rfl
      exact absurd hb (by decide)
  have hd0 := hdigit d hd
  unfold initialIsDecimal text signText PointSecond
  rw [hwhole]
  rcases n.sign with _ | _ | _
  · cases ds with
    | nil =>
      unfold fractionText
      cases n.fraction with
      | none => simp [hd0]
      | some f => simp
    | cons e es =>
      have he := hdigit e (n.whole_digits e (by rw [hwhole]; simp))
      simp [hd0, he]
  · simp [hd0]
  · simp [hd0]

end Numeral

/-! ## What is stored -/

/-- The command stores the number that INITIAL denotes: a text without a point
    as a decimal, one with a point as a real. -/
def StoresInitial (op : CounterOp) (t : HashTable ℚ) (key : List Byte)
    (offset : Option (List Byte)) (n : Numeral) : Prop :=
  ∃ v, hashTableGet (op.exec key offset (some n.text) t) key = some v ∧
    match n.fraction with
    | none => v.type = cacheValueDecimal ∧ ∃ d, v.value = .decimal d ∧ (d.toInt : ℚ) = n.value
    | some _ => v.type = cacheValueReal ∧ v.value = .real n.value

/-- Under an absent key INC and DEC store the number that INITIAL denotes unless
    INITIAL has a point that is not its second character. -/
theorem storesInitial_iff (op : CounterOp) {t : HashTable ℚ} {key : List Byte}
    (habsent : hashTableGet t key = none) (offset : Option (List Byte)) {n : Numeral}
    (hrange : n.fraction = none → int64Min ≤ n.integer ∧ n.integer ≤ int64Max) :
    StoresInitial op t key offset n ↔ n.fraction = none ∨ n.PointSecond := by
  unfold StoresInitial
  rw [hashTableGet_counter, habsent]
  simp only [counterValue, Option.some.injEq, exists_eq_left']
  have htype := n.initialIsDecimal_text
  unfold initialValue initialType initialData
  cases hfrac : n.fraction with
  | none =>
    obtain ⟨hmin, hmax⟩ := hrange hfrac
    have hdec : initialIsDecimal (some n.text) = true := by
      by_contra hne
      exact (htype.mp (by simpa using hne)).1 hfrac
    rw [hdec]
    refine iff_of_true ⟨rfl, _, rfl, ?_⟩ (Or.inl rfl)
    show ((Int64.ofInt (strtol n.text)).toInt : ℚ) = n.value
    rw [n.strtol_text hmin hmax, n.value_eq_integer hfrac, Int64.toInt_ofInt_of_le]
    · exact hmin
    · unfold int64Max at hmax
      exact Int.lt_of_le_sub_one hmax
  | some f =>
    have hsecond : initialIsDecimal (some n.text) = false ↔ n.PointSecond := by
      rw [htype, hfrac]
      simp
    simp only [reduceCtorEq, false_or]
    rw [← hsecond]
    cases initialIsDecimal (some n.text) with
    | false =>
      refine iff_of_true ⟨rfl, ?_⟩ rfl
      exact congrArg CacheData.real n.atof_text
    | true => exact iff_of_false (fun h => absurd h.1 (by decide)) (by decide)

/-- `2.5`. -/
def numeralTwoPoint : Numeral where
  sign := none
  whole := ascii "2"
  fraction := some (ascii "5")
  whole_ne_nil := by decide
  whole_digits := List.all_eq_true.mp (by decide)
  fraction_digits := by
    intro f hf
    cases hf
    exact List.all_eq_true.mp (by decide)

/-- `12.5`. -/
def numeralTwelvePoint : Numeral where
  sign := none
  whole := ascii "12"
  fraction := some (ascii "5")
  whole_ne_nil := by decide
  whole_digits := List.all_eq_true.mp (by decide)
  fraction_digits := by
    intro f hf
    cases hf
    exact List.all_eq_true.mp (by decide)

theorem storesInitial_twoPoint :
    StoresInitial .inc (hashTableCreate ℚ 1 Nat.one_pos) (ascii "a") none numeralTwoPoint :=
  (storesInitial_iff .inc rfl none (fun h => absurd h (by decide))).mpr (Or.inr ⟨rfl, rfl⟩)

/-- `12.5` is stored as the decimal 12. -/
theorem not_storesInitial_twelvePoint :
    ¬ StoresInitial .inc (hashTableCreate ℚ 1 Nat.one_pos) (ascii "a") none numeralTwelvePoint := by
  rintro ⟨v, hv, htype, -⟩
  rw [hashTableGet_counter, Option.some.injEq] at hv
  rw [← hv] at htype
  exact absurd htype (by decide)

end Memuncached.Server
