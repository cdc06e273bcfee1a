import Memuncached.Lib.Runs
import Memuncached.Server.Tokens

/-!
# The words of a line

`GET_NEXT_ARG` from the start of a command on, as often as one likes. Every step
works on the block that the steps before it have left, with NULs in place of the
separators behind the words they returned; it looks no further back.

* `ScanState`: the cursor stands on a word, with everything before it scanned, or
  on the terminator.
* `getNextArgs_words`: the steps return the maximal runs of bytes other than
  separators, terminated in place, and then NULL.
-/

namespace Memuncached.Server

open Runs

/-! ## Specification -/

/-- A byte of a word. -/
def isWordByte (b : Byte) : Bool := !isSep b

/-- `n` steps of `GET_NEXT_ARG`. An argument is the offset of the pointer
    returned and the C string there. -/
def getNextArgs : ℕ → Cursor → Option (List (Option (ℕ × List Byte)) × Cursor)
  | 0, c => some ([], c)
  | n + 1, c => do
    let (args, c) ← getNextArgs n c
    let (arg, next) ← getNextArg c
    return (args ++ [arg.map fun w => (c.itr, w)], next)

/-- The separators overwritten with NULs. -/
def zeroSeps (s : List Byte) : List Byte := s.map fun b => if isSep b then 0 else b

/-- Every byte other than a separator is kept. -/
def Keeps (mem mem' : List Byte) : Prop :=
  ∀ (i : ℕ) (b : Byte), mem[i]? = some b → isSep b = false → mem'[i]? = some b

/-- The word stands in memory where it stands in the command, with a NUL behind
    it. -/
def TerminatedAt (mem : List Byte) (arg : ℕ × List Byte) : Prop :=
  ∃ before behind, mem = before ++ (arg.2 ++ 0 :: behind) ∧ before.length = arg.1

/-- The state behind `n` steps that were to return `args`, from a command with
    `rest` behind its terminator. -/
structure Scanned (command rest : List Byte) (args : List (ℕ × List Byte)) (n : ℕ) (c : Cursor) :
    Prop where
  itr_le : c.itr ≤ command.length
  mem : c.mem = zeroSeps (command.take c.itr) ++ (command.drop c.itr ++ 0 :: rest)
  terminated : ∀ arg ∈ args.take n, TerminatedAt c.mem arg
  step : ∀ arg c', getNextArg c = some (arg, c') → Keeps c.mem c'.mem

/-! ## Separators and words -/

@[simp] theorem length_zeroSeps (s : List Byte) : (zeroSeps s).length = s.length :=
  List.length_map _

theorem zeroSeps_append (s t : List Byte) : zeroSeps (s ++ t) = zeroSeps s ++ zeroSeps t :=
  List.map_append

theorem zeroSeps_word {w : List Byte} (hw : Word w) : zeroSeps w = w := by
  refine (List.map_congr_left fun b hb => ?_).trans (List.map_id w)
  rw [hw.not_sep b hb]
  rfl

theorem zeroSeps_seps {seps : List Byte} (h : ∀ b ∈ seps, isSep b = true) :
    zeroSeps seps = List.replicate seps.length 0 := by
  rw [zeroSeps, List.map_eq_replicate_iff]
  intro b hb
  rw [if_pos (h b hb)]

theorem Keeps.refl (mem : List Byte) : Keeps mem mem := fun _ _ h _ => h

theorem keeps_append {a a' b b' : List Byte} (hlen : a.length = a'.length) (ha : Keeps a a')
    (hb : Keeps b b') : Keeps (a ++ b) (a' ++ b') := by
  intro i x hx hsep
  by_cases hi : i < a.length
  · rw [List.getElem?_append_left hi] at hx
    rw [List.getElem?_append_left (by omega)]
    exact ha i x hx hsep
  · rw [List.getElem?_append_right (by omega)] at hx
    rw [List.getElem?_append_right (by omega), ← hlen]
    exact hb _ x hx hsep

theorem keeps_seps {seps : List Byte} (h : ∀ b ∈ seps, isSep b = true) (mem : List Byte) :
    Keeps seps mem := by
  intro i b hb hsep
  rw [h b (List.mem_of_getElem? hb)] at hsep
  cases hsep

theorem TerminatedAt.append {mem : List Byte} {arg : ℕ × List Byte} (h : TerminatedAt mem arg)
    (mem' : List Byte) : TerminatedAt (mem ++ mem') arg := by
  obtain ⟨before, behind, rfl, hlen⟩ := h
  exact ⟨before, behind ++ mem', by simp, hlen⟩

/-- What is left of a command starts with a word and the separators behind it. -/
theorem exists_word {todo : List Byte} (hnul : (0 : Byte) ∉ todo)
    (hfirst : ∃ b ∈ todo.head?, isSep b = false) :
    ∃ w seps todo', todo = w ++ (seps ++ todo') ∧ Word w ∧ (∀ b ∈ seps, isSep b = true) ∧
      (∀ b ∈ todo'.head?, isSep b = false) ∧ (seps = [] → todo' = []) := by
  have hword : todo = todo.takeWhile isWordByte ++ todo.dropWhile isWordByte :=
    List.takeWhile_append_dropWhile.symm
  generalize hgap : todo.dropWhile isWordByte = gap at hword
  have hseps : gap = gap.takeWhile isSep ++ gap.dropWhile isSep :=
    List.takeWhile_append_dropWhile.symm
  refine ⟨todo.takeWhile isWordByte, gap.takeWhile isSep, gap.dropWhile isSep, ?_, ⟨?_, ?_, ?_⟩,
    fun b hb => List.mem_takeWhile_imp hb, fun b hb => ?_, fun hnil => ?_⟩
  · rw [← hseps]
    exact hword
  · obtain ⟨b, hb, hsep⟩ := hfirst
    obtain ⟨t, rfl⟩ := List.head?_eq_some_iff.mp hb
    simp [isWordByte, hsep]
  · rintro b hb rfl
    exact hnul ((List.takeWhile_sublist isWordByte).subset hb)
  · intro b hb
    have hb := List.mem_takeWhile_imp hb
    simpa [isWordByte] using hb
  · have hhead := List.head?_dropWhile_not isSep gap
    rw [Option.mem_def.mp hb] at hhead
    simpa using hhead
  · -- without separators the word goes up to the end
    cases gap with
    | nil => rfl
    | cons b gap =>
      have hhead := List.head?_dropWhile_not isWordByte todo
      rw [hgap] at hhead
      have hb : isSep b = true := by simpa [isWordByte] using hhead
      simp [hb] at hnil

/-! ## One step -/

/-- Where the scan is behind `n` steps: on a word, everything before it being
    scanned, or on the terminator. -/
inductive ScanState (command rest : List Byte) : ℕ → Cursor → Prop
  | word {before todo : List Byte} {found : List (ℕ × List Byte)}
      (hsplit : command = before ++ todo) (hfirst : ∃ b ∈ todo.head?, isSep b = false)
      (hruns : runs isWordByte command = found ++ runsFrom isWordByte before.length true todo)
      (hterm : ∀ arg ∈ found, TerminatedAt (zeroSeps before) arg) :
      ScanState command rest found.length (cursorAt (zeroSeps before) (todo ++ 0 :: rest))
  | finish {n : ℕ} (hruns : (runs isWordByte command).length ≤ n)
      (hterm : ∀ arg ∈ runs isWordByte command,
        TerminatedAt (zeroSeps command ++ 0 :: rest) arg) :
      ScanState command rest n (cursorAt (zeroSeps command) (0 :: rest))

/-- The runs of what is left start with the word; behind its separators they go
    on as before. -/
theorem runsFrom_word {w seps todo : List Byte} (hw : Word w) (hseps : ∀ b ∈ seps, isSep b = true)
    (hend : seps = [] → todo = []) (off : ℕ) :
    runsFrom isWordByte off true (w ++ (seps ++ todo)) =
      (off, w) :: runsFrom isWordByte (off + w.length + seps.length) true todo := by
  have hword : ∀ b ∈ w, isWordByte b = true := fun b hb => by simp [isWordByte, hw.not_sep b hb]
  have hgap : ∀ b ∈ seps, isWordByte b = false := fun b hb => by simp [isWordByte, hseps b hb]
  cases seps with
  | nil =>
    rw [hend rfl, List.append_nil, runsFrom_run hw.ne_nil hword (by simp)]
    rfl
  | cons s seps =>
    have hhead : ∀ b ∈ (s :: seps ++ todo).head?, isWordByte b = false := by
      intro b hb
      rw [List.cons_append, List.head?_cons, Option.mem_some_iff] at hb
      exact hb ▸ hgap s List.mem_cons_self
    rw [runsFrom_run hw.ne_nil hword hhead, runsFrom_gap (List.cons_ne_nil s seps) hgap]

theorem zeroSeps_step (before : List Byte) {w seps : List Byte} (hw : Word w)
    (hseps : ∀ b ∈ seps, isSep b = true) :
    zeroSeps (before ++ (w ++ seps)) = zeroSeps before ++ w ++ List.replicate seps.length 0 := by
  rw [zeroSeps_append, zeroSeps_append, zeroSeps_word hw, zeroSeps_seps hseps,
    List.append_assoc]

/-- The step on a word stops at the next one or at the terminator. -/
theorem getNextArg_scan (before rest : List Byte) {w seps todo : List Byte} (hw : Word w)
    (hseps : ∀ b ∈ seps, isSep b = true) (hhead : ∀ b ∈ todo.head?, isSep b = false)
    (hend : seps = [] → todo = []) :
    getNextArg (cursorAt (zeroSeps before) (w ++ (seps ++ todo) ++ 0 :: rest)) =
      some (some w, cursorAt (zeroSeps (before ++ (w ++ seps))) (todo ++ 0 :: rest)) := by
  obtain ⟨b, rest', hstop, hb, hnil⟩ : ∃ b rest', todo ++ 0 :: rest = b :: rest' ∧
      isSep b = false ∧ (seps = [] → b = 0) := by
    cases todo with
    | nil => exact ⟨0, rest, rfl, rfl, fun _ => rfl⟩
    | cons b t => exact ⟨b, t ++ 0 :: rest, rfl, hhead b rfl, fun h => by cases hend h⟩
  have hmem : w ++ (seps ++ todo) ++ 0 :: rest = w ++ (seps ++ b :: rest') := by
    rw [← hstop]
    simp only [List.append_assoc]
  rw [hmem, hstop, zeroSeps_step before hw hseps]
  exact getNextArg_word (zeroSeps before) hw hseps hb hnil rest'

/-- The step on a word changes separators only. -/
theorem keeps_scan (before rest : List Byte) {w seps : List Byte} (hw : Word w)
    (hseps : ∀ b ∈ seps, isSep b = true) (todo : List Byte) :
    Keeps (zeroSeps before ++ (w ++ (seps ++ todo) ++ 0 :: rest))
      (zeroSeps (before ++ (w ++ seps)) ++ (todo ++ 0 :: rest)) := by
  rw [zeroSeps_step before hw hseps]
  simp only [List.append_assoc]
  refine keeps_append rfl (Keeps.refl _) (keeps_append rfl (Keeps.refl _) ?_)
  exact keeps_append (by simp) (keeps_seps hseps _) (Keeps.refl _)

/-- Behind the step on a word it is terminated where it stands. -/
theorem terminatedAt_word (before w : List Byte) {seps : List Byte} (hne : seps ≠ []) :
    TerminatedAt (zeroSeps before ++ w ++ List.replicate seps.length 0) (before.length, w) := by
  obtain ⟨s, seps, rfl⟩ := List.exists_cons_of_ne_nil hne
  refine ⟨zeroSeps before, List.replicate seps.length 0, ?_, length_zeroSeps before⟩
  rw [List.length_cons, List.replicate_succ, List.append_assoc]

/-- The state behind the step on a word. -/
theorem scanState_next {command rest before w seps todo : List Byte} {found : List (ℕ × List Byte)}
    (hcommand : command = before ++ (w ++ seps) ++ todo)
    (hzero : zeroSeps (before ++ (w ++ seps)) =
      zeroSeps before ++ w ++ List.replicate seps.length 0)
    (hhead : ∀ b ∈ todo.head?, isSep b = false) (hend : seps = [] → todo = [])
    (hruns : runs isWordByte command = found ++
      (before.length, w) :: runsFrom isWordByte (before.length + w.length + seps.length) true todo)
    (hterm : ∀ arg ∈ found, TerminatedAt (zeroSeps before) arg) :
    ScanState command rest (found.length + 1)
      (cursorAt (zeroSeps (before ++ (w ++ seps))) (todo ++ 0 :: rest)) := by
  have hterm' : ∀ arg ∈ found, TerminatedAt (zeroSeps (before ++ (w ++ seps))) arg := by
    intro arg harg
    rw [hzero, List.append_assoc]
    exact (hterm arg harg).append _
  cases todo with
  | nil =>
    rw [List.append_nil] at hcommand
    have hfound : runs isWordByte command = found ++ [(before.length, w)] := hruns
    rw [← hcommand] at hzero hterm' ⊢
    refine .finish (by rw [hfound, List.length_append, List.length_singleton]) fun arg harg => ?_
    rw [hfound] at harg
    rcases List.mem_append.mp harg with harg | harg
    · exact (hterm' arg harg).append _
    · rw [List.mem_singleton.mp harg, hzero]
      by_cases hseps : seps = []
      · subst hseps
        exact ⟨zeroSeps before, rest, by simp, length_zeroSeps before⟩
      · exact (terminatedAt_word before w hseps).append _
  | cons b todo =>
    have hseps : seps ≠ [] := fun hnil => List.cons_ne_nil b todo (hend hnil)
    have hlen : before.length + w.length + seps.length = (before ++ (w ++ seps)).length := by
      simp only [List.length_append]
      omega
    have hcount : found.length + 1 = (found ++ [(before.length, w)]).length := by simp
    rw [hcount]
    refine .word hcommand ⟨b, rfl, hhead b rfl⟩ ?_ fun arg harg => ?_
    · rw [hruns, hlen, List.append_assoc]
      rfl
    · rcases List.mem_append.mp harg with harg | harg
      · exact hterm' arg harg
      · rw [List.mem_singleton.mp harg, hzero]
        exact terminatedAt_word before w hseps

/-- A step returns the next run, or NULL when there is none, and keeps every byte
    that is not a separator. -/
theorem ScanState.step {command rest : List Byte} {n : ℕ} {c : Cursor}
    (hnul : (0 : Byte) ∉ command) (h : ScanState command rest n c) :
    ∃ arg c', getNextArg c = some (arg, c') ∧
      (arg.map fun w => (c.itr, w)) = (runs isWordByte command)[n]? ∧
      ScanState command rest (n + 1) c' ∧ Keeps c.mem c'.mem := by
  cases h with
  | finish hruns hterm =>
    refine ⟨none, _, getNextArg_end _ _, ?_, .finish (by omega) hterm, Keeps.refl _⟩
    rw [List.getElem?_eq_none hruns]
    rfl
  | @word before todo found hsplit hfirst hruns hterm =>
    have hnul' : (0 : Byte) ∉ todo := fun hmem => hnul (hsplit ▸ List.mem_append_right _ hmem)
    obtain ⟨w, seps, todo', rfl, hw, hseps, hhead, hend⟩ := exists_word hnul' hfirst
    rw [runsFrom_word hw hseps hend] at hruns
    have hcommand : command = before ++ (w ++ seps) ++ todo' := by
      rw [hsplit]
      simp only [List.append_assoc]
    have hzero := zeroSeps_step before hw hseps
    refine ⟨_, _, getNextArg_scan before rest hw hseps hhead hend, ?_,
      scanState_next hcommand hzero hhead hend hruns hterm, keeps_scan before rest hw hseps todo'⟩
    rw [hruns, List.getElem?_append_right le_rfl, Nat.sub_self]
    show some ((zeroSeps before).length, w) = _
    rw [length_zeroSeps]
    rfl

/-! ## Any number of steps -/

theorem ScanState.scanned {command rest : List Byte} {n : ℕ} {c : Cursor}
    (hnul : (0 : Byte) ∉ command) (h : ScanState command rest n c) :
    Scanned command rest (runs isWordByte command) n c := by
  obtain ⟨arg, c', harg, -, -, hkeeps⟩ := h.step hnul
  have hstep : ∀ arg c', getNextArg c = some (arg, c') → Keeps c.mem c'.mem := by
    intro arg₁ c₁ harg₁
    rw [harg, Option.some.injEq, Prod.mk.injEq] at harg₁
    rw [← harg₁.2]
    exact hkeeps
  clear harg hkeeps
  cases h with
  | finish hruns hterm =>
    refine ⟨?_, ?_, fun arg harg => hterm arg (List.mem_of_mem_take harg), hstep⟩
    · show (zeroSeps command).length ≤ command.length
      rw [length_zeroSeps]
    · show zeroSeps command ++ 0 :: rest = _
      have hitr : (cursorAt (zeroSeps command) (0 :: rest)).itr = command.length :=
        length_zeroSeps command
      rw [hitr, List.take_length, List.drop_length, List.nil_append]
  | @word before todo found hsplit hfirst hruns hterm =>
    have hitr : (cursorAt (zeroSeps before) (todo ++ 0 :: rest)).itr = before.length :=
      length_zeroSeps before
    refine ⟨?_, ?_, fun arg harg => ?_, hstep⟩
    · rw [hitr, hsplit, List.length_append]
      omega
    · rw [hitr, hsplit, List.take_left, List.drop_left]
      rfl
    · rw [hruns, List.take_left] at harg
      exact (hterm arg harg).append _

/-- `n` steps return the first `n` runs, and NULLs behind the last. -/
theorem getNextArgs_runs {command : List Byte} (rest : List Byte) (hnul : (0 : Byte) ∉ command)
    (hfirst : ∃ b ∈ command.head?, isSep b = false) (n : ℕ) :
    ∃ c, getNextArgs n (cursorAt [] (command ++ 0 :: rest)) =
        some ((List.range n).map fun k => (runs isWordByte command)[k]?, c) ∧
      ScanState command rest n c := by
  induction n with
  | zero =>
    refine ⟨_, rfl, ?_⟩
    exact @ScanState.word command rest [] command [] rfl hfirst rfl (by simp)
  | succ n ih =>
    obtain ⟨c, hargs, hstate⟩ := ih
    obtain ⟨arg, c', harg, hrun, hstate', -⟩ := hstate.step hnul
    refine ⟨c', ?_, hstate'⟩
    rw [getNextArgs, hargs]
    simp only [Option.bind_eq_bind, Option.bind_some]
    rw [harg]
    simp only [Option.bind_some, hrun, List.range_succ, List.map_append, List.map_singleton]
    rfl

theorem getNextArgs_words {command : List Byte} (rest : List Byte) (hnul : (0 : Byte) ∉ command)
    (hfirst : ∃ b ∈ command.head?, isSep b = false) :
    ∃ args : List (ℕ × List Byte), (args.Pairwise fun a b => a.1 < b.1) ∧
      (∀ off w, (off, w) ∈ args ↔ MaximalRun isWordByte command off w) ∧
      ∀ n, ∃ c, getNextArgs n (cursorAt [] (command ++ 0 :: rest)) =
          some ((List.range n).map fun k => args[k]?, c) ∧
        Scanned command rest args n c := by
  refine ⟨runs isWordByte command, runs_sorted command, fun off w => mem_runs, fun n => ?_⟩
  obtain ⟨c, hargs, hstate⟩ := getNextArgs_runs rest hnul hfirst n
  exact ⟨c, hargs, hstate.scanned hnul⟩

example : (getNextArgs 4 (cursorAt [] (ascii "SET  a 0\r\n" ++ 0 :: ascii "x y"))).map Prod.fst =
    some [some (0, ascii "SET"), some (5, ascii "a"), some (7, ascii "0"), none] := by decide

/-- The header of a SET, with words behind its terminator. -/
theorem getNextArgs_words_set :
    ∃ args : List (ℕ × List Byte), (args.Pairwise fun a b => a.1 < b.1) ∧
      (∀ off w, (off, w) ∈ args ↔ MaximalRun isWordByte (ascii "SET  a 0\r\n") off w) ∧
      ∀ n, ∃ c, getNextArgs n (cursorAt [] (ascii "SET  a 0\r\n" ++ 0 :: ascii "x y")) =
          some ((List.range n).map fun k => args[k]?, c) ∧
        Scanned (ascii "SET  a 0\r\n") (ascii "x y") args n c :=
  getNextArgs_words (ascii "x y") (by decide) ⟨83, rfl, rfl⟩

end Memuncached.Server
