import Memuncached.Server.HandleCommand
import Memuncached.Server.Words

/-!
# Command lines

What `handle_command` makes of a command, whatever it is: which call it ends in,
and what it leaves of the block. It takes nothing from the line but its words, and
for an ADD or SET the place where the scan stops.

* `handleCommandCall_spec`: the call is `commandCall`, and the block is as it was
  but for separators in the part that was scanned.
-/

namespace Memuncached.Server

open Runs

/-! ## Specification -/

/-- The words of a line. -/
def lineWords (s : List Byte) : List (List Byte) := (runs isWordByte s).map Prod.snd

/-- Where the scan is behind `n` words. -/
def scanStop (s : List Byte) (n : ℕ) : ℕ := ((runs isWordByte s)[n]?).elim s.length Prod.fst

/-- The call for a line of these words; `itr` is where the payload pointer of an ADD
    or SET ends up. -/
def wordsCall (itr : ℕ) : List (List Byte) → Call
  | [] => .nothing
  | cmd :: args =>
    match commandWord cmd with
    | some .add => storeCall args[0]? args[1]? args[2]? itr false
    | some .set => storeCall args[0]? args[1]? args[2]? itr true
    | _ => lineCall (cmd :: args)

/-- The call for a line. A separator at its start makes the command word empty. -/
def commandCall (s : List Byte) : Call :=
  if s.head?.any isSep then .badRequest invalidCommand else wordsCall (scanStop s 4) (lineWords s)

/-- The words that are scanned, the command word included. -/
def CommandWord.scanned : CommandWord → ℕ
  | add | dec | inc | set => 4
  | del | get => 2
  | bye | stt | ver => 1

/-- How far a line is scanned. -/
def scannedLength (s : List Byte) : ℕ :=
  if s.head?.any isSep then (s.takeWhile isSep).length
  else scanStop s (((lineWords s).head?.bind commandWord).elim 1 CommandWord.scanned)

/-- The block of a line that was scanned up to `k`. -/
def scannedBlock (s rest : List Byte) (k : ℕ) : List Byte :=
  zeroSeps (s.take k) ++ (s.drop k ++ 0 :: rest)

section Scan

variable {s rest : List Byte} {n : ℕ} {c : Cursor}

/-! ## Scans -/

theorem lineWords_getElem? (s : List Byte) (n : ℕ) :
    (lineWords s)[n]? = ((runs isWordByte s)[n]?).map Prod.snd := List.getElem?_map

/-- A step of the scan returns the next word. -/
theorem ScanState.next (hnul : (0 : Byte) ∉ s) (h : ScanState s rest n c) :
    ∃ c', getNextArg c = some ((lineWords s)[n]?, c') ∧ ScanState s rest (n + 1) c' := by
  obtain ⟨arg, c', harg, hrun, hstate, -⟩ := h.step hnul
  refine ⟨c', ?_, hstate⟩
  rw [harg, lineWords_getElem?, ← hrun, Option.map_map]
  cases arg <;> rfl

/-- The cursor stands on the next word, or on the terminator when there is none. -/
theorem ScanState.at_cursor (hnul : (0 : Byte) ∉ s) (h : ScanState s rest n c) :
    c.itr = scanStop s n ∧
      ∃ b, c.mem[c.itr]? = some b ∧ (b == 0) = ((runs isWordByte s)[n]?).isNone := by
  have hcursor : ∀ (pre suf : List Byte), (cursorAt pre suf).mem[(cursorAt pre suf).itr]? =
      suf.head? := by
    intro pre suf
    rw [cursorAt, List.getElem?_append_right le_rfl, Nat.sub_self, List.head?_eq_getElem?]
  cases h with
  | finish hruns hterm =>
    rw [scanStop, List.getElem?_eq_none hruns]
    exact ⟨length_zeroSeps s, 0, hcursor _ _, rfl⟩
  | @word before todo found hsplit hfirst hruns hterm =>
    have hnul' : (0 : Byte) ∉ todo := fun hmem => hnul (hsplit ▸ List.mem_append_right _ hmem)
    obtain ⟨w, seps, todo', rfl, hw, hseps, hhead, hend⟩ := exists_word hnul' hfirst
    rw [runsFrom_word hw hseps hend] at hruns
    rw [scanStop, hruns, List.getElem?_append_right le_rfl, Nat.sub_self]
    refine ⟨length_zeroSeps before, w.head hw.ne_nil, ?_, ?_⟩
    · rw [hcursor, List.append_assoc, List.head?_append_of_ne_nil _ hw.ne_nil,
        List.head?_eq_some_head hw.ne_nil]
    · have hne : w.head hw.ne_nil ≠ 0 := hw.ne_zero _ (List.head_mem hw.ne_nil)
      simpa using hne

/-- The block that the scan has left. -/
theorem ScanState.mem_eq (hnul : (0 : Byte) ∉ s) (h : ScanState s rest n c) :
    c.mem = scannedBlock s rest (scanStop s n) := by
  rw [← (h.at_cursor hnul).1]
  exact (h.scanned hnul).mem

/-! ## Commands -/

/-- A line that starts with separators. -/
theorem handleCommandCall_seps (rest : List Byte) (hsep : s.head?.any isSep = true) :
    handleCommandCall (s ++ 0 :: rest) =
      some (.badRequest invalidCommand, scannedBlock s rest (s.takeWhile isSep).length) := by
  obtain ⟨seps, todo, hsplit, hseps, htodo⟩ : ∃ seps todo, s = seps ++ todo ∧
      (∀ b ∈ seps, isSep b = true) ∧ ∀ b ∈ todo.head?, isSep b = false := by
    refine ⟨s.takeWhile isSep, s.dropWhile isSep, List.takeWhile_append_dropWhile.symm,
      fun b hb => List.mem_takeWhile_imp hb, fun b hb => ?_⟩
    have hhead := List.head?_dropWhile_not isSep s
    rwa [show (s.dropWhile isSep).head? = some b from hb] at hhead
  subst hsplit
  have hne : seps ≠ [] := by
    rintro rfl
    cases todo with
    | nil => simp at hsep
    | cons b todo =>
      have hb := htodo b rfl
      simp [hb] at hsep
  obtain ⟨b, todo', htail, hb⟩ : ∃ b todo', todo ++ 0 :: rest = b :: todo' ∧ isSep b = false := by
    cases todo with
    | nil => exact ⟨0, rest, rfl, by decide⟩
    | cons b todo => exact ⟨b, _, rfl, htodo b rfl⟩
  have harg : ArgAt (seps ++ todo ++ 0 :: rest) [] seps b todo' :=
    ⟨by rw [List.append_assoc, htail]; rfl, by simp, hseps, hb, fun h => absurd h hne⟩
  have hempty : commandWord [] = none := by decide
  rw [handleCommandCall_argAt harg, scannedArg, if_neg fun h => hne h.2, takeWhile_run hseps htodo]
  simp only [hempty, List.nil_append]
  rw [scannedBlock, List.take_left, List.drop_left, zeroSeps_seps hseps, htail]

/-- The branch of a command word. -/
theorem wordCall_words (hnul : (0 : Byte) ∉ s) {cmd : List Byte} {args : List (List Byte)}
    (hwords : lineWords s = cmd :: args) (h : ScanState s rest 1 c) {word : CommandWord}
    (hword : commandWord cmd = some word) :
    wordCall c word = some (wordsCall (scanStop s 4) (cmd :: args),
      scannedBlock s rest (scanStop s word.scanned)) := by
  obtain ⟨-, b, hb, hend⟩ := h.at_cursor hnul
  obtain ⟨c₁, h₁, hstate₁⟩ := h.next hnul
  obtain ⟨c₂, h₂, hstate₂⟩ := hstate₁.next hnul
  obtain ⟨c₃, h₃, hstate₃⟩ := hstate₂.next hnul
  rw [hwords, List.getElem?_cons_succ] at h₁ h₂ h₃
  have hthree : getThreeArgs c = some (args[0]?, args[1]?, args[2]?, c₃) := by
    unfold getThreeArgs
    simp only [h₁, h₂, h₃, Option.bind_eq_bind, Option.bind_some]
    rfl
  have hbare : ((runs isWordByte s)[1]?).isNone = args.isEmpty := by
    have hlen : (lineWords s)[1]?.isNone = ((runs isWordByte s)[1]?).isNone := by
      rw [lineWords_getElem?, Option.isNone_map]
    rw [← hlen, hwords]
    cases args <;> rfl
  rw [hbare] at hend
  have hitr := (hstate₃.at_cursor hnul).1
  cases word with
  | add | set =>
    simp only [wordCall, hthree, wordsCall, hword, hitr, hstate₃.mem_eq hnul, Option.bind_eq_bind,
      Option.bind_some]
    rfl
  | dec | inc =>
    simp only [wordCall, hthree, wordsCall, lineCall, hword, hstate₃.mem_eq hnul,
      Option.bind_eq_bind, Option.bind_some]
    rfl
  | del | get =>
    simp only [wordCall, h₁, wordsCall, lineCall, hword, hstate₁.mem_eq hnul, Option.bind_eq_bind,
      Option.bind_some]
    rfl
  | bye | stt | ver =>
    simp only [wordCall, hb, hend, wordsCall, lineCall, hword, Option.bind_eq_bind,
      Option.bind_some]
    rw [h.mem_eq hnul]
    rfl

/-- `handle_command` ends in the call of the line's words, and has written NULs over
    the separators of what it has scanned. -/
theorem handleCommandCall_spec (hnul : (0 : Byte) ∉ s) (rest : List Byte) :
    handleCommandCall (s ++ 0 :: rest) =
      some (commandCall s, scannedBlock s rest (scannedLength s)) := by
  unfold commandCall scannedLength
  by_cases hsep : s.head?.any isSep = true
  · rw [if_pos hsep, if_pos hsep]
    exact handleCommandCall_seps rest hsep
  rw [if_neg hsep, if_neg hsep]
  cases s with
  | nil => rfl
  | cons b s =>
    have hfirst : ∃ b' ∈ (b :: s).head?, isSep b' = false := ⟨b, rfl, by simpa using hsep⟩
    have hstart : ScanState (b :: s) rest 0 (cursorAt [] (b :: s ++ 0 :: rest)) :=
      @ScanState.word (b :: s) rest [] (b :: s) [] rfl hfirst rfl (by simp)
    obtain ⟨c, hc, hstate⟩ := hstart.next hnul
    have hmem := hstate.mem_eq hnul
    have hblock : ({ mem := b :: s ++ 0 :: rest, itr := 0 } : Cursor) =
        cursorAt [] (b :: s ++ 0 :: rest) := rfl
    unfold handleCommandCall
    rw [hblock, hc]
    cases hwords : lineWords (b :: s) with
    | nil =>
      simp only [List.getElem?_nil, Option.bind_eq_bind, Option.bind_some, hmem]
      rfl
    | cons cmd args =>
      simp only [List.getElem?_cons_zero, List.head?_cons, Option.bind_eq_bind, Option.bind_some]
      cases hword : commandWord cmd with
      | none =>
        simp only [wordsCall, lineCall, hword, hmem]
        rfl
      | some word => exact wordCall_words hnul hwords hstate hword

/-- The payload pointer of the SET ends up on its payload, at offset 11. -/
theorem handleCommandCall_spec_set :
    handleCommandCall (ascii "set  a 2 3\nxyz" ++ [0]) =
      some (.set (ascii "a") (ascii "2") (ascii "3") 11 true,
        ascii "set" ++ [0, 0] ++ ascii "a" ++ [0] ++ ascii "2" ++ [0] ++ ascii "3" ++ [0] ++
          ascii "xyz" ++ [0]) := by
  rw [handleCommandCall_spec (by decide) []]
  decide

end Scan

end Memuncached.Server
