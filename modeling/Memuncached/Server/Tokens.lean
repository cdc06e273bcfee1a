import Memuncached.C.Text

/-!
# The command line scanner

`put_null_terminator_unknown_size` and `GET_NEXT_ARG` of `connection.c`: the
command block is scanned in place, every run of separators behind an argument
is overwritten with NULs. A scan that runs off the block has no defined result
(`none`).

* `getNextArg_word`: behind a word and a run of separators the scanner returns
  the word and stands on the next byte.
* `getNextArg_end`: at a NUL it returns NULL and stays.
-/

namespace Memuncached.Server

/-! ## Model -/

/-- The first loop of `put_null_terminator_unknown_size` on the bytes from
    `itr` on: how far it advances. -/
def skipWord : List Byte → Option ℕ
  | [] => none
  | b :: mem => if b != 0 && !isSep b then (skipWord mem).map (· + 1) else some 0

/-- The second loop of `put_null_terminator_unknown_size` on the bytes from
    `itr` on: the bytes it leaves and how far it advances. -/
def clearSeps : List Byte → Option (List Byte × ℕ)
  | [] => none
  | b :: mem =>
    if isSep b then (clearSeps mem).map fun r => (0 :: r.1, r.2 + 1) else some (b :: mem, 0)

/-- The command block and the pointer `itr` into it. -/
structure Cursor where
  mem : List Byte
  itr : ℕ
  deriving DecidableEq, Repr

/-- `put_null_terminator_unknown_size` (connection.c, lines 135-147). -/
def putNullTerminatorUnknownSize (c : Cursor) : Option Cursor := do
  let word ← skipWord (c.mem.drop c.itr)
  let (rest, seps) ← clearSeps (c.mem.drop (c.itr + word))
  return { mem := c.mem.take (c.itr + word) ++ rest, itr := c.itr + word + seps }

/-- `GET_NEXT_ARG` (connection.c, lines 8-10). The argument is returned as the
    C string at the pointer: this call terminates it, and later ones write
    behind it only. -/
def getNextArg (c : Cursor) : Option (Option (List Byte) × Cursor) := do
  let b ← c.mem[c.itr]?
  let next ← putNullTerminatorUnknownSize c
  return (if b = 0 then none else some (cstr (next.mem.drop c.itr)), next)

/-! ## Words -/

/-- A non-empty run of bytes other than separators and NUL. -/
structure Word (w : List Byte) : Prop where
  ne_nil : w ≠ []
  ne_zero : ∀ b ∈ w, b ≠ 0
  not_sep : ∀ b ∈ w, isSep b = false

theorem word_iff (w : List Byte) :
    Word w ↔ w ≠ [] ∧ w.all (fun b => b != 0 && !isSep b) = true := by
  rw [List.all_eq_true]
  constructor
  · intro h
    refine ⟨h.ne_nil, fun b hb => ?_⟩
    simp [h.ne_zero b hb, h.not_sep b hb]
  · rintro ⟨hne, hall⟩
    refine ⟨hne, fun b hb => ?_, fun b hb => ?_⟩
    · have hb := hall b hb
      simp only [Bool.and_eq_true, bne_iff_ne] at hb
      exact hb.1
    · have hb := hall b hb
      simp only [Bool.and_eq_true, Bool.not_eq_true'] at hb
      exact hb.2

instance (w : List Byte) : Decidable (Word w) := decidable_of_iff' _ (word_iff w)

/-- A printed number is a word. -/
theorem word_decimalDigits (n : ℕ) : Word (decimalDigits n) where
  ne_nil := decimalDigits_ne_nil n
  ne_zero := by
    rintro b hb rfl
    exact absurd (isDigit_of_mem_decimalDigits n 0 hb) (by decide)
  not_sep := by
    intro b hb
    have hdigit := isDigit_of_mem_decimalDigits n b hb
    by_contra hsep
    simp only [isSep, Bool.not_eq_false, Bool.or_eq_true, beq_iff_eq] at hsep
    rcases hsep with (rfl | rfl) | rfl
    · exact absurd hdigit (by decide)
    · exact absurd hdigit (by decide)
    · exact absurd hdigit (by decide)

theorem Word.zero_notMem {w : List Byte} (h : Word w) : (0 : Byte) ∉ w :=
  fun h0 => h.ne_zero 0 h0 rfl

theorem Word.newline_notMem {w : List Byte} (h : Word w) : (10 : Byte) ∉ w :=
  fun h0 => absurd (h.not_sep 10 h0) (by decide)

/-- The cursor that has passed `pre` and stands on `suf`. -/
def cursorAt (pre suf : List Byte) : Cursor := { mem := pre ++ suf, itr := pre.length }

theorem drop_itr_cursorAt (pre suf : List Byte) (n : ℕ) :
    (cursorAt pre suf).mem.drop ((cursorAt pre suf).itr + n) = suf.drop n := by
  unfold cursorAt
  rw [← List.drop_drop, List.drop_left]

theorem skipWord_append {w : List Byte} (hw : ∀ b ∈ w, b ≠ 0 ∧ isSep b = false) {b : Byte}
    (hb : b = 0 ∨ isSep b = true) (rest : List Byte) :
    skipWord (w ++ b :: rest) = some w.length := by
  induction w with
  | nil =>
    rw [List.nil_append, skipWord, if_neg]
    · rfl
    · rcases hb with rfl | hb
      · simp
      · simp [hb]
  | cons a w ih =>
    obtain ⟨h0, hs⟩ := hw a List.mem_cons_self
    rw [List.cons_append, skipWord, if_pos (by simp [h0, hs]),
      ih fun x hx => hw x (List.mem_cons_of_mem _ hx)]
    rfl

theorem clearSeps_append {seps : List Byte} (hseps : ∀ b ∈ seps, isSep b = true) {b : Byte}
    (hb : isSep b = false) (rest : List Byte) :
    clearSeps (seps ++ b :: rest) =
      some (List.replicate seps.length 0 ++ b :: rest, seps.length) := by
  induction seps with
  | nil => simp [clearSeps, hb]
  | cons a seps ih =>
    rw [List.cons_append, clearSeps, if_pos (hseps a List.mem_cons_self),
      ih fun x hx => hseps x (List.mem_cons_of_mem _ hx)]
    rfl

/-- The scanner passes a word and the separators behind it. Without
    separators it can only stop at a NUL. -/
theorem putNullTerminatorUnknownSize_eq (pre : List Byte) {w seps : List Byte} {b : Byte}
    (hw : ∀ b ∈ w, b ≠ 0 ∧ isSep b = false) (hseps : ∀ b ∈ seps, isSep b = true)
    (hb : isSep b = false) (hstop : seps = [] → b = 0) (rest : List Byte) :
    putNullTerminatorUnknownSize (cursorAt pre (w ++ (seps ++ b :: rest))) =
      some (cursorAt (pre ++ w ++ List.replicate seps.length 0) (b :: rest)) := by
  have hskip : skipWord (w ++ (seps ++ b :: rest)) = some w.length := by
    cases seps with
    | nil => exact skipWord_append hw (Or.inl (hstop rfl)) rest
    | cons a seps => exact skipWord_append hw (Or.inr (hseps a List.mem_cons_self)) _
  have h0 := drop_itr_cursorAt pre (w ++ (seps ++ b :: rest)) 0
  have h1 := drop_itr_cursorAt pre (w ++ (seps ++ b :: rest)) w.length
  rw [List.drop_zero, Nat.add_zero] at h0
  rw [List.drop_left] at h1
  have htake : (pre ++ (w ++ (seps ++ b :: rest))).take (pre.length + w.length) = pre ++ w := by
    rw [← List.append_assoc, ← List.length_append, List.take_left]
  unfold putNullTerminatorUnknownSize
  rw [h0, hskip]
  simp only [Option.bind_eq_bind, Option.bind_some]
  rw [h1, clearSeps_append hseps hb]
  simp only [Option.bind_some, cursorAt, htake]
  simp [Nat.add_assoc]

/-- `GET_NEXT_ARG` on a word. -/
theorem getNextArg_word (pre : List Byte) {w seps : List Byte} {b : Byte} (hw : Word w)
    (hseps : ∀ b ∈ seps, isSep b = true) (hb : isSep b = false) (hstop : seps = [] → b = 0)
    (rest : List Byte) :
    getNextArg (cursorAt pre (w ++ (seps ++ b :: rest))) =
      some (some w, cursorAt (pre ++ w ++ List.replicate seps.length 0) (b :: rest)) := by
  obtain ⟨a, as, rfl⟩ := List.exists_cons_of_ne_nil hw.ne_nil
  have hbyte : (cursorAt pre (a :: as ++ (seps ++ b :: rest))).mem[
      (cursorAt pre (a :: as ++ (seps ++ b :: rest))).itr]? = some a := by
    simp [cursorAt]
  have hstr : cstr ((cursorAt (pre ++ a :: as ++ List.replicate seps.length 0) (b :: rest)).mem.drop
      pre.length) = a :: as := by
    have hdrop : (cursorAt (pre ++ a :: as ++ List.replicate seps.length 0) (b :: rest)).mem.drop
        pre.length = a :: as ++ (List.replicate seps.length 0 ++ b :: rest) := by
      simp [cursorAt]
    rw [hdrop]
    cases seps with
    | nil =>
      rw [hstop rfl]
      exact cstr_append_zero hw.zero_notMem
    | cons s seps =>
      rw [List.length_cons, List.replicate_succ, List.cons_append]
      exact cstr_append_zero hw.zero_notMem
  unfold getNextArg
  rw [hbyte, putNullTerminatorUnknownSize_eq pre (fun x hx => ⟨hw.ne_zero x hx, hw.not_sep x hx⟩)
    hseps hb hstop]
  simp only [Option.bind_eq_bind, Option.bind_some, if_neg (hw.ne_zero a List.mem_cons_self)]
  have hitr : (cursorAt pre (a :: as ++ (seps ++ b :: rest))).itr = pre.length := rfl
  rw [hitr, hstr]
  rfl

/-- Separators up to the end of the block lead the scan off it. -/
theorem clearSeps_off {seps : List Byte} (hseps : ∀ b ∈ seps, isSep b = true) :
    clearSeps seps = none := by
  induction seps with
  | nil => rfl
  | cons a seps ih =>
    rw [clearSeps, if_pos (hseps a List.mem_cons_self),
      ih fun x hx => hseps x (List.mem_cons_of_mem _ hx)]
    rfl

/-- `GET_NEXT_ARG` on a word with separators up to the end of the block. -/
theorem getNextArg_off (pre : List Byte) {w seps : List Byte}
    (hw : ∀ b ∈ w, b ≠ 0 ∧ isSep b = false) (hne : seps ≠ [])
    (hseps : ∀ b ∈ seps, isSep b = true) : getNextArg (cursorAt pre (w ++ seps)) = none := by
  obtain ⟨a, as, rfl⟩ := List.exists_cons_of_ne_nil hne
  have hskip := skipWord_append hw (Or.inr (hseps a List.mem_cons_self)) as
  have h0 := drop_itr_cursorAt pre (w ++ a :: as) 0
  have h1 := drop_itr_cursorAt pre (w ++ a :: as) w.length
  rw [List.drop_zero, Nat.add_zero] at h0
  rw [List.drop_left] at h1
  have hput : putNullTerminatorUnknownSize (cursorAt pre (w ++ a :: as)) = none := by
    unfold putNullTerminatorUnknownSize
    rw [h0, hskip]
    simp only [Option.bind_eq_bind, Option.bind_some]
    rw [h1, clearSeps_off hseps]
    rfl
  unfold getNextArg
  rw [hput]
  cases (cursorAt pre (w ++ a :: as)).mem[(cursorAt pre (w ++ a :: as)).itr]? <;> rfl

/-- `GET_NEXT_ARG` at a NUL. -/
theorem getNextArg_end (pre rest : List Byte) :
    getNextArg (cursorAt pre (0 :: rest)) = some (none, cursorAt pre (0 :: rest)) := by
  have hbyte : (cursorAt pre (0 :: rest)).mem[(cursorAt pre (0 :: rest)).itr]? = some 0 := by
    simp [cursorAt]
  have hput := @putNullTerminatorUnknownSize_eq pre [] [] 0 (by simp) (by simp) rfl
    (fun _ => rfl) rest
  rw [List.nil_append, List.nil_append] at hput
  unfold getNextArg
  rw [hbyte, hput]
  simp [cursorAt]

/-! ## All blocks -/

/-- How the scanner takes a block apart: the bytes of an argument, the
    separators behind it, and the byte it stops at. -/
structure ArgAt (mem arg seps : List Byte) (b : Byte) (rest : List Byte) : Prop where
  mem_eq : mem = arg ++ (seps ++ b :: rest)
  arg_bytes : ∀ x ∈ arg, x ≠ 0 ∧ isSep x = false
  seps_bytes : ∀ x ∈ seps, isSep x = true
  stop : isSep b = false
  nul : seps = [] → b = 0

/-- A block starts with separators up to its end or up to another byte. -/
theorem exists_seps (l : List Byte) :
    (∀ x ∈ l, isSep x = true) ∨
      ∃ seps b rest, l = seps ++ b :: rest ∧ (∀ x ∈ seps, isSep x = true) ∧ isSep b = false := by
  induction l with
  | nil => exact Or.inl (by simp)
  | cons a l ih =>
    by_cases ha : isSep a = true
    · rcases ih with hall | ⟨seps, b, rest, rfl, hseps, hb⟩
      · exact Or.inl (List.forall_mem_cons.mpr ⟨ha, hall⟩)
      · exact Or.inr ⟨a :: seps, b, rest, rfl, List.forall_mem_cons.mpr ⟨ha, hseps⟩, hb⟩
    · exact Or.inr ⟨[], a, l, rfl, by simp, by simpa using ha⟩

/-- A block without NULs and separators leads the scan off it. -/
theorem getNextArg_word_off (pre : List Byte) {w : List Byte}
    (hw : ∀ b ∈ w, b ≠ 0 ∧ isSep b = false) : getNextArg (cursorAt pre w) = none := by
  have hskip : skipWord w = none := by
    induction w with
    | nil => rfl
    | cons a w ih =>
      obtain ⟨h0, hs⟩ := hw a List.mem_cons_self
      rw [skipWord, if_pos (by simp [h0, hs]), ih fun x hx => hw x (List.mem_cons_of_mem _ hx)]
      rfl
  have h0 := drop_itr_cursorAt pre w 0
  rw [List.drop_zero, Nat.add_zero] at h0
  have hput : putNullTerminatorUnknownSize (cursorAt pre w) = none := by
    unfold putNullTerminatorUnknownSize
    rw [h0, hskip]
    rfl
  unfold getNextArg
  rw [hput]
  cases (cursorAt pre w).mem[(cursorAt pre w).itr]? <;> rfl

/-- A block has an argument at its start, or the scan runs off it. -/
theorem exists_argAt (mem : List Byte) :
    (∃ arg seps b rest, ArgAt mem arg seps b rest) ∨
      ((0 : Byte) ∉ mem ∧ ∀ pre, getNextArg (cursorAt pre mem) = none) := by
  set p : Byte → Bool := fun x => x != 0 && !isSep x with hp
  have hgood : ∀ {x}, p x = true ↔ x ≠ 0 ∧ isSep x = false := by simp [hp]
  have hword : ∀ x ∈ mem.takeWhile p, x ≠ 0 ∧ isSep x = false :=
    fun x hx => hgood.mp (List.mem_takeWhile_imp hx)
  have hsplit : mem = mem.takeWhile p ++ mem.dropWhile p := List.takeWhile_append_dropWhile.symm
  cases htail : mem.dropWhile p with
  | nil =>
    rw [htail, List.append_nil] at hsplit
    rw [← hsplit] at hword
    exact Or.inr ⟨fun h0 => (hword 0 h0).1 rfl, fun pre => getNextArg_word_off pre hword⟩
  | cons a tail =>
    have ha : ¬ (a ≠ 0 ∧ isSep a = false) := by
      intro ha
      have hhead := List.head?_dropWhile_not p mem
      rw [htail] at hhead
      simp only [List.head?_cons, hgood.mpr ha] at hhead
      cases hhead
    rw [htail] at hsplit
    rcases exists_seps (a :: tail) with hall | ⟨seps, b, rest, heq, hseps, hb⟩
    · refine Or.inr ⟨fun h0 => ?_, fun pre => ?_⟩
      · rw [hsplit, List.mem_append] at h0
        rcases h0 with h0 | h0
        · exact (hword 0 h0).1 rfl
        · exact absurd (hall 0 h0) (by decide)
      · rw [hsplit]
        exact getNextArg_off pre hword (by simp) hall
    · refine Or.inl ⟨_, seps, b, rest, hsplit.trans (by rw [heq]), hword, hseps, hb, fun hnil => ?_⟩
      subst hnil
      injection heq with hab
      subst hab
      by_contra h0
      exact ha ⟨h0, hb⟩

/-- The scan does not pass a NUL. -/
theorem ArgAt.zero_mem {mem arg seps rest : List Byte} {b : Byte} (h : ArgAt mem arg seps b rest)
    (h0 : (0 : Byte) ∈ mem) : (0 : Byte) ∈ b :: rest := by
  rw [h.mem_eq, List.mem_append, List.mem_append] at h0
  rcases h0 with h0 | h0 | h0
  · exact absurd rfl (h.arg_bytes 0 h0).1
  · exact absurd (h.seps_bytes 0 h0) (by decide)
  · exact h0

/-- The argument `GET_NEXT_ARG` returns. -/
def scannedArg (arg seps : List Byte) : Option (List Byte) :=
  if arg = [] ∧ seps = [] then none else some arg

/-- `GET_NEXT_ARG` on any block that the scan does not leave. -/
theorem getNextArg_argAt (pre : List Byte) {mem arg seps : List Byte} {b : Byte}
    {rest : List Byte} (h : ArgAt mem arg seps b rest) :
    getNextArg (cursorAt pre mem) =
      some (scannedArg arg seps,
        cursorAt (pre ++ arg ++ List.replicate seps.length 0) (b :: rest)) := by
  unfold scannedArg
  have hput := putNullTerminatorUnknownSize_eq pre h.arg_bytes h.seps_bytes h.stop h.nul rest
  by_cases hne : arg = []
  · by_cases hseps : seps = []
    · have hend := getNextArg_end pre rest
      rw [if_pos ⟨hne, hseps⟩, h.mem_eq, hne, hseps, h.nul hseps]
      simpa using hend
    · obtain ⟨s, seps', rfl⟩ := List.exists_cons_of_ne_nil hseps
      have hs0 : s ≠ 0 := by
        rintro rfl
        exact absurd (h.seps_bytes 0 List.mem_cons_self) (by decide)
      have hbyte : (cursorAt pre mem).mem[(cursorAt pre mem).itr]? = some s := by
        rw [h.mem_eq, hne]
        simp [cursorAt]
      rw [if_neg (by simp)]
      unfold getNextArg
      rw [hbyte, h.mem_eq, hput]
      simp [hs0, hne, cursorAt, cstr, List.replicate_succ]
  · have hw : Word arg := ⟨hne, fun x hx => (h.arg_bytes x hx).1, fun x hx => (h.arg_bytes x hx).2⟩
    rw [if_neg fun hboth => hne hboth.1, h.mem_eq]
    exact getNextArg_word pre hw h.seps_bytes h.stop h.nul rest

/-- Separators without an argument before them stand at the start of the
    command only. -/
theorem ArgAt.seps_nil {b b' : Byte} {mem arg seps rest : List Byte} (hb : isSep b = false)
    (h : ArgAt (b :: mem) arg seps b' rest) (harg : arg = []) : seps = [] := by
  subst harg
  cases seps with
  | nil => rfl
  | cons s seps =>
    have heq := h.mem_eq
    injection heq with heq
    rw [heq, h.seps_bytes s List.mem_cons_self] at hb
    cases hb

/-- Behind another argument NULL means that there is none. -/
theorem scannedArg_eq_some {b b' : Byte} {mem arg seps rest w : List Byte} (hb : isSep b = false)
    (h : ArgAt (b :: mem) arg seps b' rest) :
    scannedArg arg seps = some w ↔ arg = w ∧ w ≠ [] := by
  unfold scannedArg
  by_cases harg : arg = []
  · rw [if_pos ⟨harg, h.seps_nil hb harg⟩]
    exact iff_of_false (by simp) fun hw => hw.2 (hw.1 ▸ harg)
  · rw [if_neg fun hboth => harg hboth.1]
    simp only [Option.some.injEq]
    exact ⟨fun hw => ⟨hw, hw ▸ harg⟩, fun hw => hw.1⟩

/-- The next arguments in the block are `args`; the scan then stands on `rest`. -/
inductive Args : List Byte → List (List Byte) → List Byte → Prop
  | nil (mem : List Byte) : Args mem [] mem
  | cons {mem arg seps rest rest' : List Byte} {b : Byte} {args : List (List Byte)}
      (harg : ArgAt mem arg seps b rest) (hne : arg ≠ []) (hargs : Args (b :: rest) args rest') :
      Args mem (arg :: args) rest'

end Memuncached.Server
