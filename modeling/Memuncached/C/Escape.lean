import Memuncached.C.Number

/-!
# `str_escape`

`str_escape` of `utils.h` copies a string for the log and replaces the bytes
that do not print. It allocates `strlen(str) * 5 + 1` bytes and moves on by 4
after each `sprintf` of `\x%02x`, but that writes eight digits for a negative
`char`.

Specification: `escaped`, the bytes 32 to 126 as they are and any other as `\x`
with the two hex digits of its value.

* `strEscape_correct_iff`: the stores stay in the buffer and leave the escaped
  string there exactly when each byte from 128 on is 255 and the buffer has
  eleven bytes left where its text starts (`EscapesSafely`).
-/

namespace Memuncached

/-! ## Specification -/

/-- A lower case hex digit. -/
def hexDigit (d : ℕ) : Byte := if d < 10 then digitByte d else (87 + d).toUInt8

def escapeByte (b : Byte) : List Byte :=
  if 32 ≤ b ∧ b ≤ 126 then [b] else [92, 120, hexDigit (b.toNat / 16), hexDigit (b.toNat % 16)]

/-- The escaped string. -/
def escaped (str : List Byte) : List Byte := str.flatMap escapeByte

/-! ## Model -/

/-- `%02x`. -/
def fmt02x (v : UInt32) : List Byte :=
  let digits := (Nat.toDigits 16 v.toNat).map fun c => c.toNat.toUInt8
  List.replicate (2 - digits.length) 48 ++ digits

/-- `*c_ptr > 31 && *c_ptr < 127`, where a `char` is signed. -/
def isPrintable (c : Byte) : Bool := 31 < c.toInt8 && c.toInt8 < 127

/-- What `sprintf(eb_ptr, "\\x%02x", (int)*c_ptr)` stores. -/
def sprintfEscape (c : Byte) : List Byte := [92, 120] ++ fmt02x c.toInt8.toInt32.toUInt32 ++ [0]

/-- The stores of the loop of `str_escape` (utils.h, lines 16-26) with `eb_ptr`
    at offset `eb`, and the last terminator. -/
def strEscapeLoop : List Byte → (eb : ℕ) → List (ℕ × List Byte)
  | [], eb => [(eb, [0])]
  | c :: str, eb =>
    if isPrintable c then (eb, [c]) :: strEscapeLoop str (eb + 1)
    else (eb, sprintfEscape c) :: strEscapeLoop str (eb + 4)

/-- `strlen(str) * 5 + 1` (utils.h, line 13). -/
def strEscapeLen (str : List Byte) : ℕ := str.length * 5 + 1

/-- `str_escape` (utils.h, lines 10-29): the buffer after the stores. The
    argument is a C string, its allocation is taken to be granted. -/
def strEscape (str : List Byte) : List Byte :=
  (strEscapeLoop str 0).foldl (fun buffer s => store buffer s.1 s.2)
    (List.replicate (strEscapeLen str) 0)

/-- The stores lie in the buffer and the string in it is the escaped one. -/
def EscapeCorrect (str : List Byte) : Prop :=
  StoresWithin (strEscapeLen str) (strEscapeLoop str 0) ∧ cstr (strEscape str) = escaped str

/-- How far `eb_ptr` moves on. -/
def escapeWidth (c : Byte) : ℕ := if isPrintable c then 1 else 4

/-- Each byte from 128 on is 255, and where its text starts the buffer has room
    for eleven bytes. -/
def EscapesSafely (str : List Byte) : Prop :=
  ∀ pre c post, str = pre ++ c :: post → 128 ≤ c →
    c = 255 ∧ (pre.map escapeWidth).sum + 10 ≤ 5 * str.length

/-! ## One byte -/

/-- The part of the text for a byte that the next store leaves. -/
def escapeKept (c : Byte) : List Byte :=
  if isPrintable c then [c] else (sprintfEscape c).take 4

/-- A statement about every byte. -/
theorem forall_byte {P : Byte → Prop} (h : ∀ n : Fin 256, P (UInt8.ofNat n)) (c : Byte) : P c := by
  have hc := h ⟨c.toNat, c.toNat_lt⟩
  rwa [UInt8.ofNat_toNat] at hc

set_option maxRecDepth 4000 in
/-- Two digits for a byte below 128, and `ffffff` before them for any other. -/
theorem length_sprintfEscape (c : Byte) :
    (sprintfEscape c).length = if 128 ≤ c then 11 else 5 :=
  forall_byte (P := fun c => (sprintfEscape c).length = if 128 ≤ c then 11 else 5)
    (by decide) c

set_option maxRecDepth 4000 in
theorem isPrintable_lt {c : Byte} (h : isPrintable c = true) : ¬ 128 ≤ c :=
  forall_byte (P := fun c => isPrintable c = true → ¬ 128 ≤ c) (by decide) c h

theorem length_escapeKept (c : Byte) : (escapeKept c).length = escapeWidth c := by
  unfold escapeKept escapeWidth
  split_ifs
  · rfl
  · rw [List.length_take, length_sprintfEscape]
    split_ifs <;> rfl

set_option maxRecDepth 4000 in
theorem length_escapeByte (c : Byte) : (escapeByte c).length = escapeWidth c :=
  forall_byte (P := fun c => (escapeByte c).length = escapeWidth c) (by decide) c

set_option maxRecDepth 4000 in
theorem zero_notMem_escapeKept (c : Byte) : (0 : Byte) ∉ escapeKept c :=
  forall_byte (P := fun c => (0 : Byte) ∉ escapeKept c) (by decide) c

set_option maxRecDepth 4000 in
/-- The digits that are kept for a negative `char` are `ff`. -/
theorem escapeKept_eq_iff (c : Byte) : escapeKept c = escapeByte c ↔ (128 ≤ c → c = 255) :=
  forall_byte (P := fun c => escapeKept c = escapeByte c ↔ (128 ≤ c → c = 255))
    (by decide) c

theorem escapeWidth_le (c : Byte) : escapeWidth c ≤ 4 := by
  unfold escapeWidth
  split_ifs <;> omega

/-! ## The bounds -/

theorem storesWithin_cons {size off : ℕ} {bytes : List Byte} (hne : bytes ≠ [])
    (stores : List (ℕ × List Byte)) :
    StoresWithin size ((off, bytes) :: stores) ↔
      off + bytes.length ≤ size ∧ StoresWithin size stores := by
  have hlen := List.length_pos_of_ne_nil hne
  unfold StoresWithin
  simp only [written_cons]
  constructor
  · intro h
    have hlast := h (off + bytes.length - 1) (Or.inl (by omega))
    exact ⟨by omega, fun i hi => h i (Or.inr hi)⟩
  · rintro ⟨hoff, h⟩ i (⟨-, hi⟩ | hi)
    · omega
    · exact h i hi

/-- A condition on every byte of `c :: str` and what stands before it. -/
theorem forall_split_cons {α : Type} {P : List α → α → Prop} (c : α) (str : List α) :
    (∀ pre b post, c :: str = pre ++ b :: post → P pre b) ↔
      P [] c ∧ ∀ pre b post, str = pre ++ b :: post → P (c :: pre) b := by
  constructor
  · intro h
    refine ⟨h [] c str rfl, fun pre b post hstr => h (c :: pre) b post ?_⟩
    rw [hstr, List.cons_append]
  · rintro ⟨hhead, htail⟩ pre b post hstr
    cases pre with
    | nil =>
      obtain ⟨rfl, -⟩ := List.cons.inj hstr
      exact hhead
    | cons a pre =>
      obtain ⟨rfl, hrest⟩ := List.cons.inj hstr
      exact htail pre b post hrest

/-- As long as five bytes are left for each byte to come, only a byte from 128
    on can overrun the buffer. -/
theorem storesWithin_strEscapeLoop {size : ℕ} (str : List Byte) :
    ∀ eb, eb + 5 * str.length + 1 ≤ size →
      (StoresWithin size (strEscapeLoop str eb) ↔
        ∀ pre c post, str = pre ++ c :: post → 128 ≤ c →
          eb + (pre.map escapeWidth).sum + 11 ≤ size) := by
  induction str with
  | nil =>
    intro eb heb
    rw [strEscapeLoop, storesWithin_cons (by simp)]
    refine iff_of_true ⟨by simpa using heb, fun i hi => absurd hi (written_nil i)⟩ ?_
    intro pre c post h
    exact absurd h (by simp)
  | cons c str ih =>
    intro eb heb
    rw [List.length_cons] at heb
    have hrest := ih (eb + escapeWidth c) (by have := escapeWidth_le c; omega)
    rw [forall_split_cons]
    simp only [List.map_nil, List.sum_nil, List.map_cons, List.sum_cons, ← Nat.add_assoc,
      Nat.add_zero]
    rw [strEscapeLoop, ← hrest]
    unfold escapeWidth
    by_cases hp : isPrintable c = true
    · rw [if_pos hp, if_pos hp, storesWithin_cons (by simp), List.length_singleton]
      refine and_congr (iff_of_true (by omega) fun h => absurd h (isPrintable_lt hp)) Iff.rfl
    · have hlen := length_sprintfEscape c
      have hne : sprintfEscape c ≠ [] := by
        intro h
        rw [h] at hlen
        split_ifs at hlen
      rw [if_neg hp, if_neg hp, storesWithin_cons hne, hlen]
      refine and_congr ?_ Iff.rfl
      by_cases hc : 128 ≤ c
      · simp [hc]
      · rw [if_neg hc]
        exact iff_of_true (by omega) fun h => absurd h hc

/-! ## The text -/

/-- Stores that stay in the buffer leave the kept part of each text, one after
    the other, and a terminator. -/
theorem foldl_strEscapeLoop (str : List Byte) :
    ∀ out rest : List Byte,
      StoresWithin (out.length + rest.length) (strEscapeLoop str out.length) →
      ∃ junk, (strEscapeLoop str out.length).foldl (fun buffer s => store buffer s.1 s.2)
        (out ++ rest) = out ++ str.flatMap escapeKept ++ 0 :: junk := by
  induction str with
  | nil =>
    intro out rest h
    rw [strEscapeLoop, storesWithin_cons (by simp), List.length_singleton] at h
    refine ⟨rest.drop 1, ?_⟩
    rw [strEscapeLoop, List.foldl_cons, List.foldl_nil,
      store_append rfl (by rw [List.length_singleton]; omega)]
    simp
  | cons c str ih =>
    intro out rest h
    have hstep : ∀ text kept left : List Byte, text = kept ++ left → kept = escapeKept c →
        out.length + text.length ≤ out.length + rest.length →
        StoresWithin (out.length + rest.length) (strEscapeLoop str (out ++ kept).length) →
        ∃ junk, (strEscapeLoop str (out ++ kept).length).foldl
          (fun buffer s => store buffer s.1 s.2) (store (out ++ rest) out.length text) =
            out ++ (c :: str).flatMap escapeKept ++ 0 :: junk := by
      rintro text kept left rfl hkept hlen hrest
      rw [store_append rfl (by omega)]
      have hsize : (out ++ kept).length + (left ++ rest.drop (kept ++ left).length).length =
          out.length + rest.length := by
        simp only [List.length_append, List.length_drop] at hlen ⊢
        omega
      obtain ⟨junk, hjunk⟩ := ih (out ++ kept) (left ++ rest.drop (kept ++ left).length)
        (by rwa [hsize])
      refine ⟨junk, ?_⟩
      rw [List.flatMap_cons, ← hkept]
      simpa only [List.append_assoc] using hjunk
    rw [strEscapeLoop] at h ⊢
    by_cases hp : isPrintable c = true
    · rw [if_pos hp, storesWithin_cons (by simp)] at h
      rw [if_pos hp, List.foldl_cons]
      have hkept : [c] = escapeKept c := (if_pos hp).symm
      have hlen : (out ++ [c]).length = out.length + 1 := List.length_append
      rw [← hlen] at h ⊢
      exact hstep [c] [c] [] rfl hkept h.1 h.2
    · have htext := (List.take_append_drop 4 (sprintfEscape c)).symm
      have hkept : (sprintfEscape c).take 4 = escapeKept c := (if_neg hp).symm
      have hlen : (out ++ (sprintfEscape c).take 4).length = out.length + 4 := by
        rw [List.length_append, hkept, length_escapeKept, escapeWidth, if_neg hp]
      have hne : sprintfEscape c ≠ [] := List.cons_ne_nil _ _
      rw [if_neg hp, storesWithin_cons hne] at h
      rw [if_neg hp, List.foldl_cons]
      rw [← hlen] at h ⊢
      exact hstep _ _ _ htext hkept h.1 h.2

theorem cstr_strEscape {str : List Byte}
    (h : StoresWithin (strEscapeLen str) (strEscapeLoop str 0)) :
    cstr (strEscape str) = str.flatMap escapeKept := by
  have hlen : (List.replicate (strEscapeLen str) (0 : Byte)).length = strEscapeLen str :=
    List.length_replicate
  obtain ⟨junk, hjunk⟩ := foldl_strEscapeLoop str [] (List.replicate (strEscapeLen str) 0)
    (by rwa [List.length_nil, Nat.zero_add, hlen])
  rw [List.nil_append, List.nil_append] at hjunk
  unfold strEscape
  rw [show (0 : ℕ) = ([] : List Byte).length from rfl, hjunk, cstr_append_zero]
  intro hmem
  obtain ⟨c, -, hc⟩ := List.mem_flatMap.mp hmem
  exact zero_notMem_escapeKept c hc

/-- Texts of the same lengths are the same text only if they agree byte by
    byte. -/
theorem flatMap_eq_iff {α β : Type} {f g : α → List β} (hlen : ∀ a, (f a).length = (g a).length)
    (l : List α) : l.flatMap f = l.flatMap g ↔ ∀ a ∈ l, f a = g a := by
  induction l with
  | nil => simp
  | cons a l ih =>
    simp only [List.flatMap_cons, List.forall_mem_cons, ← ih]
    constructor
    · intro h
      exact List.append_inj h (hlen a)
    · rintro ⟨ha, hl⟩
      rw [ha, hl]

/-! ## When the escaped string is right -/

theorem strEscape_correct_iff (str : List Byte) : EscapeCorrect str ↔ EscapesSafely str := by
  have hbounds := @storesWithin_strEscapeLoop (strEscapeLen str) str 0
    (by unfold strEscapeLen; omega)
  have htext : str.flatMap escapeKept = escaped str ↔ ∀ c ∈ str, 128 ≤ c → c = 255 := by
    rw [escaped, flatMap_eq_iff fun c => (length_escapeKept c).trans (length_escapeByte c).symm]
    exact forall₂_congr fun c _ => escapeKept_eq_iff c
  have hlen : ∀ n, (0 + n + 11 ≤ strEscapeLen str ↔ n + 10 ≤ 5 * str.length) := by
    intro n
    unfold strEscapeLen
    omega
  constructor
  · rintro ⟨hwithin, hcstr⟩ pre c post hstr hc
    rw [cstr_strEscape hwithin] at hcstr
    have hmem : c ∈ str := by rw [hstr]; simp
    exact ⟨htext.mp hcstr c hmem hc, (hlen _).mp (hbounds.mp hwithin pre c post hstr hc)⟩
  · intro h
    have hwithin := hbounds.mpr fun pre c post hstr hc => (hlen _).mpr (h pre c post hstr hc).2
    refine ⟨hwithin, ?_⟩
    rw [cstr_strEscape hwithin]
    refine htext.mpr fun c hmem hc => ?_
    obtain ⟨pre, post, hstr⟩ := List.append_of_mem hmem
    exact (h pre c post hstr hc).1

/-- For `é` the first escape already ends at the last byte of the buffer, and
    the second one behind it. -/
theorem not_escapeCorrect_eAcute : ¬ ∀ str : List Byte, (0 : Byte) ∉ str → EscapeCorrect str := by
  intro h
  have hwithin := (h [195, 169] (by decide)).1
  exact absurd (hwithin 14 ⟨(4, sprintfEscape 169), by decide, by decide, by decide⟩)
    (by decide)

/-- What is logged for a command without such bytes. -/
example : cstr (strEscape (ascii "VER\n")) = ascii "VER\\x0a" := by decide

end Memuncached
