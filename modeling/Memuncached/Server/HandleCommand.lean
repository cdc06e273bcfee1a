import Memuncached.Server.Reply
import Memuncached.Server.Tokens

/-!
# `handle_command`

`handle_command` (connection.c, lines 149-323) reads the command word and its
arguments with `GET_NEXT_ARG`, checks them, and ends in one call: a
`memuncached_*` function or a bad-request reply. `handleCommandCall` is that
call. The escaped copy of the command goes to the log only and is not part of
it.

* `handleCommandCall_line`: on a line of words the call is the one `lineCall`
  reads off the list of words.
* `handleCommandCall_store`: on the header of an ADD or SET the payload pointer
  stands on the first byte behind LENGTH that is no separator.
-/

namespace Memuncached.Server

/-! ## Model -/

/-- The call a command ends in. `set` stands for both `memuncached_set` and
    `memuncached_add`; `payloadChunk` is the offset of the payload pointer. -/
inductive Call where
  | nothing
  | badRequest (message : List Byte)
  | bye
  | stt
  | ver
  | dec (key : List Byte) (offset initial : Option (List Byte))
  | inc (key : List Byte) (offset initial : Option (List Byte))
  | del (key : List Byte)
  | get (key : List Byte)
  | set (key type length : List Byte) (payloadChunk : ℕ) (overwrite : Bool)
  deriving DecidableEq, Repr

/-- The command words. -/
inductive CommandWord where
  | add | bye | dec | del | inc | get | set | stt | ver
  deriving DecidableEq, Repr

/-- The chain of `strcasecmp` tests. -/
def commandWord (cmd : List Byte) : Option CommandWord :=
  if strcasecmpEq cmd (ascii "ADD") then some .add
  else if strcasecmpEq cmd (ascii "BYE") then some .bye
  else if strcasecmpEq cmd (ascii "DEC") then some .dec
  else if strcasecmpEq cmd (ascii "DEL") then some .del
  else if strcasecmpEq cmd (ascii "INC") then some .inc
  else if strcasecmpEq cmd (ascii "GET") then some .get
  else if strcasecmpEq cmd (ascii "SET") then some .set
  else if strcasecmpEq cmd (ascii "STT") then some .stt
  else if strcasecmpEq cmd (ascii "VER") then some .ver
  else none

def keyMandatory : List Byte := ascii "The argument KEY is mandatory."
def typeMandatory : List Byte := ascii "The argument TYPE is mandatory."
def typePositive : List Byte := ascii "The argument TYPE must be positive integer."
def lengthMandatory : List Byte := ascii "The argument LENGTH is mandatory."
def lengthPositive : List Byte := ascii "The argument LENGTH must be positive integer."
def offsetPositive : List Byte := ascii "The argument OFFSET must be positive real number."
def initialReal : List Byte := ascii "The argument INITIAL must be real number."
def noArguments : List Byte := ascii "The command does not take arguments."
def invalidCommand : List Byte := ascii "Invalid command."

/-- `*s == '-' || !is_decimal_string(s)` fails. -/
def isPositiveDecimal (s : List Byte) : Bool := !(s.headD 0 == 45 || !isDecimalString s)

/-- The argument checks of ADD and SET (connection.c, lines 163-201 and
    267-304). -/
def storeCall (key type length : Option (List Byte)) (itr : ℕ) (overwrite : Bool) : Call :=
  match key with
  | none => .badRequest keyMandatory
  | some key =>
    match type with
    | none => .badRequest typeMandatory
    | some type =>
      if !isPositiveDecimal type then .badRequest typePositive
      else
        match length with
        | none => .badRequest lengthMandatory
        | some length =>
          if !isPositiveDecimal length then .badRequest lengthPositive
          else .set key type length itr overwrite

/-- The argument checks of DEC and INC (connection.c, lines 202-224 and
    236-258). -/
def counterCall (call : List Byte → Option (List Byte) → Option (List Byte) → Call)
    (key offset initial : Option (List Byte)) : Call :=
  match key with
  | none => .badRequest keyMandatory
  | some key =>
    if offset.any fun offset => offset.headD 0 == 45 || !isRealString offset then
      .badRequest offsetPositive
    else if initial.any fun initial => !isRealString initial then .badRequest initialReal
    else call key offset initial

/-- The argument check of DEL and GET (connection.c, lines 225-235 and
    259-266). -/
def keyCall (call : List Byte → Call) (key : Option (List Byte)) : Call :=
  match key with
  | none => .badRequest keyMandatory
  | some key => call key

/-- The argument check of BYE, STT and VER: `*itr != 0`. -/
def bareCall (call : Call) (atEnd : Bool) : Call :=
  if atEnd then call else .badRequest noArguments

/-- The three `GET_NEXT_ARG` of ADD, DEC, INC and SET. -/
def getThreeArgs (c : Cursor) :
    Option (Option (List Byte) × Option (List Byte) × Option (List Byte) × Cursor) := do
  let (arg₁, c) ← getNextArg c
  let (arg₂, c) ← getNextArg c
  let (arg₃, c) ← getNextArg c
  return (arg₁, arg₂, arg₃, c)

/-- The branch of a command word: its arguments, their checks and the call, with
    the block as the scan leaves it. -/
def wordCall (c : Cursor) : CommandWord → Option (Call × List Byte)
  | .add => do
    let (key, type, length, c) ← getThreeArgs c
    return (storeCall key type length c.itr false, c.mem)
  | .bye => do
    let b ← c.mem[c.itr]?
    return (bareCall .bye (b == 0), c.mem)
  | .dec => do
    let (key, offset, initial, c) ← getThreeArgs c
    return (counterCall .dec key offset initial, c.mem)
  | .del => do
    let (key, c) ← getNextArg c
    return (keyCall .del key, c.mem)
  | .inc => do
    let (key, offset, initial, c) ← getThreeArgs c
    return (counterCall .inc key offset initial, c.mem)
  | .get => do
    let (key, c) ← getNextArg c
    return (keyCall .get key, c.mem)
  | .set => do
    let (key, type, length, c) ← getThreeArgs c
    return (storeCall key type length c.itr true, c.mem)
  | .stt => do
    let b ← c.mem[c.itr]?
    return (bareCall .stt (b == 0), c.mem)
  | .ver => do
    let b ← c.mem[c.itr]?
    return (bareCall .ver (b == 0), c.mem)

/-- The arguments and the call of `handle_command` (connection.c, lines
    149-323) on the command block; `none` when a scan runs off the block. -/
def handleCommandCall (command : List Byte) : Option (Call × List Byte) := do
  let (cmd, c) ← getNextArg { mem := command, itr := 0 }
  match cmd with
  | none => return (.nothing, c.mem)
  | some cmd =>
    match commandWord cmd with
    | none => return (.badRequest invalidCommand, c.mem)
    | some word => wordCall c word

theorem isPositiveDecimal_decimalDigits (n : ℕ) : isPositiveDecimal (decimalDigits n) = true := by
  obtain ⟨d, ds, hd⟩ := List.exists_cons_of_ne_nil (decimalDigits_ne_nil n)
  have hdig : isDigit d = true := isDigit_of_mem_decimalDigits n d (by rw [hd]; simp)
  have h45 : d ≠ 45 := by
    rintro rfl
    exact absurd hdig (by decide)
  have hdec := isDecimalString_decimalDigits n
  rw [hd] at hdec ⊢
  simp [isPositiveDecimal, hdec, h45]

/-! ## Lines of words -/

/-- The line of the words, separated by single spaces. -/
def joinWords : List (List Byte) → List Byte
  | [] => []
  | [w] => w
  | w :: w' :: ws => w ++ 32 :: joinWords (w' :: ws)

/-- The call for a line without payload, read off its list of words. -/
def lineCall : List (List Byte) → Call
  | [] => .nothing
  | cmd :: args =>
    match commandWord cmd with
    | some .bye => bareCall .bye args.isEmpty
    | some .dec => counterCall .dec args[0]? args[1]? args[2]?
    | some .del => keyCall .del args[0]?
    | some .inc => counterCall .inc args[0]? args[1]? args[2]?
    | some .get => keyCall .get args[0]?
    | some .stt => bareCall .stt args.isEmpty
    | some .ver => bareCall .ver args.isEmpty
    | some .add | some .set | none => .badRequest invalidCommand

/-- The cursor has the words `ws` before it, up to a NUL. -/
def AtWords (c : Cursor) (ws : List (List Byte)) : Prop :=
  ∃ pre rest, c = cursorAt pre (joinWords ws ++ 0 :: rest)

theorem joinWords_head {w : List Byte} {ws : List (List Byte)} (hw : Word w) :
    ∃ b bs, joinWords (w :: ws) = b :: bs ∧ b ≠ 0 ∧ isSep b = false := by
  obtain ⟨a, as, rfl⟩ := List.exists_cons_of_ne_nil hw.ne_nil
  have h0 := hw.ne_zero a List.mem_cons_self
  have hs := hw.not_sep a List.mem_cons_self
  cases ws with
  | nil => exact ⟨a, as, rfl, h0, hs⟩
  | cons w' ws => exact ⟨a, as ++ 32 :: joinWords (w' :: ws), rfl, h0, hs⟩

/-- `GET_NEXT_ARG` takes a word that another word follows. -/
theorem getNextArg_joinWords (pre : List Byte) {w w' : List Byte} (hw : Word w) (hw' : Word w')
    (ws : List (List Byte)) (rest : List Byte) :
    getNextArg (cursorAt pre (joinWords (w :: w' :: ws) ++ rest)) =
      some (some w, cursorAt (pre ++ w ++ [0]) (joinWords (w' :: ws) ++ rest)) := by
  obtain ⟨b, bs, hb, -, hsep⟩ := @joinWords_head w' ws hw'
  have hnext := @getNextArg_word pre w [32] b hw (by simp [isSep]) hsep (by simp) (bs ++ rest)
  have hline : joinWords (w :: w' :: ws) ++ rest = w ++ ([32] ++ b :: (bs ++ rest)) := by
    rw [joinWords, hb]
    simp
  rw [hline, hb]
  exact hnext

/-- `GET_NEXT_ARG` takes the next word, if there is one. -/
theorem getNextArg_atWords {c : Cursor} {ws : List (List Byte)} (h : AtWords c ws)
    (hws : ∀ w ∈ ws, Word w) :
    ∃ c', getNextArg c = some (ws.head?, c') ∧ AtWords c' ws.tail := by
  obtain ⟨pre, rest, rfl⟩ := h
  cases ws with
  | nil => exact ⟨_, getNextArg_end pre rest, pre, rest, rfl⟩
  | cons w ws =>
    have hw := hws w List.mem_cons_self
    cases ws with
    | nil =>
      have hnext := @getNextArg_word pre w [] 0 hw (by simp) rfl (fun _ => rfl) rest
      exact ⟨_, hnext, _, rest, rfl⟩
    | cons w' ws =>
      have hw' := hws w' (List.mem_cons_of_mem _ List.mem_cons_self)
      exact ⟨_, getNextArg_joinWords pre hw hw' ws (0 :: rest), pre ++ w ++ [0], rest, rfl⟩

/-- The byte under the cursor is a NUL when no words are left, only. -/
theorem getElem?_atWords {c : Cursor} {ws : List (List Byte)} (h : AtWords c ws)
    (hws : ∀ w ∈ ws, Word w) : ∃ b, c.mem[c.itr]? = some b ∧ (b == 0) = ws.isEmpty := by
  obtain ⟨pre, rest, rfl⟩ := h
  cases ws with
  | nil => exact ⟨0, by simp [cursorAt, joinWords], rfl⟩
  | cons w ws =>
    obtain ⟨b, bs, hb, h0, -⟩ := @joinWords_head w ws (hws w List.mem_cons_self)
    exact ⟨b, by simp [cursorAt, hb], by simp [h0]⟩

/-- On a line of words that is no ADD or SET, `handle_command` makes the call
    of the words. -/
theorem handleCommandCall_line {ws : List (List Byte)} (hws : ∀ w ∈ ws, Word w)
    (hadd : ∀ cmd ∈ ws.head?, commandWord cmd ≠ some .add)
    (hset : ∀ cmd ∈ ws.head?, commandWord cmd ≠ some .set) (rest : List Byte) :
    ∃ mem, handleCommandCall (joinWords ws ++ 0 :: rest) = some (lineCall ws, mem) := by
  have h0 : AtWords { mem := joinWords ws ++ 0 :: rest, itr := 0 } ws := ⟨[], rest, rfl⟩
  obtain ⟨c, hc, hat⟩ := getNextArg_atWords h0 hws
  have htail : ∀ w ∈ ws.tail, Word w := fun w hw => hws w (List.mem_of_mem_tail hw)
  have htail' : ∀ w ∈ ws.tail.tail, Word w := fun w hw => htail w (List.mem_of_mem_tail hw)
  have htail'' : ∀ w ∈ ws.tail.tail.tail, Word w := fun w hw => htail' w (List.mem_of_mem_tail hw)
  obtain ⟨c1, hc1, hat1⟩ := getNextArg_atWords hat htail
  obtain ⟨c2, hc2, hat2⟩ := getNextArg_atWords hat1 htail'
  obtain ⟨c3, hc3, -⟩ := getNextArg_atWords hat2 htail''
  obtain ⟨b, hb, hend⟩ := getElem?_atWords hat htail
  unfold handleCommandCall
  rw [hc]
  cases ws with
  | nil => exact ⟨_, rfl⟩
  | cons cmd args =>
    have hargs : args.tail.head? = args[1]? ∧ args.tail.tail.head? = args[2]? := by
      simp [List.head?_eq_getElem?]
    rw [List.tail_cons] at *
    have hthree : getThreeArgs c = some (args[0]?, args[1]?, args[2]?, c3) := by
      unfold getThreeArgs
      simp only [hc1, hc2, hc3, Option.bind_eq_bind, Option.bind_some, hargs]
      rw [List.head?_eq_getElem?]
      rfl
    simp only [List.head?_cons, Option.bind_eq_bind, Option.bind_some, lineCall]
    cases hword : commandWord cmd with
    | none => exact ⟨_, rfl⟩
    | some word =>
      cases word with
      | add => exact absurd hword (hadd cmd rfl)
      | set => exact absurd hword (hset cmd rfl)
      | bye => simp only [wordCall, hb, Option.bind_eq_bind, Option.bind_some, hend]; exact ⟨_, rfl⟩
      | stt => simp only [wordCall, hb, Option.bind_eq_bind, Option.bind_some, hend]; exact ⟨_, rfl⟩
      | ver => simp only [wordCall, hb, Option.bind_eq_bind, Option.bind_some, hend]; exact ⟨_, rfl⟩
      | del =>
        simp only [wordCall, hc1, Option.bind_eq_bind, Option.bind_some, List.head?_eq_getElem?]
        exact ⟨_, rfl⟩
      | get =>
        simp only [wordCall, hc1, Option.bind_eq_bind, Option.bind_some, List.head?_eq_getElem?]
        exact ⟨_, rfl⟩
      | dec => simp only [wordCall, hthree, Option.bind_eq_bind, Option.bind_some]; exact ⟨_, rfl⟩
      | inc => simp only [wordCall, hthree, Option.bind_eq_bind, Option.bind_some]; exact ⟨_, rfl⟩

/-! ## Header lines of ADD and SET -/

section Store

variable {cmd key type length : List Byte}

/-- On the header of an ADD or SET the payload pointer ends up behind the
    separators that follow LENGTH, whatever line they belong to. -/
theorem handleCommandCall_store (hword : commandWord cmd = some .add ∨ commandWord cmd = some .set)
    (hcmd : Word cmd) (hkey : Word key) (htype : Word type) (hlength : Word length)
    {seps : List Byte} {b : Byte} (hseps : ∀ x ∈ seps, isSep x = true) (hb : isSep b = false)
    (hstop : seps = [] → b = 0) (rest : List Byte) :
    ∃ pre, pre.length = (joinWords [cmd, key, type, length]).length + seps.length ∧
      handleCommandCall (joinWords [cmd, key, type, length] ++ (seps ++ b :: rest)) =
        some (storeCall (some key) (some type) (some length) pre.length
          (commandWord cmd == some .set), pre ++ b :: rest) := by
  have h0 := getNextArg_joinWords [] hcmd hkey [type, length] (seps ++ b :: rest)
  have h1 := getNextArg_joinWords (cmd ++ [0]) hkey htype [length] (seps ++ b :: rest)
  have h2 := getNextArg_joinWords (cmd ++ [0] ++ key ++ [0]) htype hlength [] (seps ++ b :: rest)
  have h3 := getNextArg_word (cmd ++ [0] ++ key ++ [0] ++ type ++ [0]) hlength hseps hb hstop rest
  rw [List.nil_append] at h0
  refine ⟨cmd ++ [0] ++ key ++ [0] ++ type ++ [0] ++ length ++ List.replicate seps.length 0,
    by simp [joinWords]; omega, ?_⟩
  have hstart : ({ mem := joinWords [cmd, key, type, length] ++ (seps ++ b :: rest), itr := 0 } :
      Cursor) = cursorAt [] (joinWords [cmd, key, type, length] ++ (seps ++ b :: rest)) := rfl
  have hlast : joinWords [length] = length := rfl
  unfold handleCommandCall
  rw [hstart, h0]
  rcases hword with hword | hword
  · simp only [Option.bind_eq_bind, Option.bind_some, hword, wordCall, getThreeArgs, h1, h2, hlast,
      h3]
    rfl
  · simp only [Option.bind_eq_bind, Option.bind_some, hword, wordCall, getThreeArgs, h1, h2, hlast,
      h3]
    rfl

/-- When nothing but separators follows LENGTH the scan runs off the block. -/
theorem handleCommandCall_store_off
    (hword : commandWord cmd = some .add ∨ commandWord cmd = some .set)
    (hcmd : Word cmd) (hkey : Word key) (htype : Word type) (hlength : Word length)
    {seps : List Byte} (hne : seps ≠ []) (hseps : ∀ x ∈ seps, isSep x = true) :
    handleCommandCall (joinWords [cmd, key, type, length] ++ seps) = none := by
  have h0 := getNextArg_joinWords [] hcmd hkey [type, length] seps
  have h1 := getNextArg_joinWords (cmd ++ [0]) hkey htype [length] seps
  have h2 := getNextArg_joinWords (cmd ++ [0] ++ key ++ [0]) htype hlength [] seps
  have h3 := getNextArg_off (cmd ++ [0] ++ key ++ [0] ++ type ++ [0])
    (fun x hx => ⟨hlength.ne_zero x hx, hlength.not_sep x hx⟩) hne hseps
  rw [List.nil_append] at h0
  have hstart : ({ mem := joinWords [cmd, key, type, length] ++ seps, itr := 0 } : Cursor) =
      cursorAt [] (joinWords [cmd, key, type, length] ++ seps) := rfl
  have hlast : joinWords [length] = length := rfl
  unfold handleCommandCall
  rw [hstart, h0]
  rcases hword with hword | hword
  · simp only [Option.bind_eq_bind, Option.bind_some, hword, wordCall, getThreeArgs, h1, h2, hlast,
      h3]
    rfl
  · simp only [Option.bind_eq_bind, Option.bind_some, hword, wordCall, getThreeArgs, h1, h2, hlast,
      h3]
    rfl

end Store

/-! ## All commands -/

theorem storeCall_eq_set {key? type? length? : Option (List Byte)} {key type length : List Byte}
    {itr itr' : ℕ} {overwrite overwrite' : Bool} :
    storeCall key? type? length? itr overwrite = .set key type length itr' overwrite' ↔
      key? = some key ∧ type? = some type ∧ length? = some length ∧
        isPositiveDecimal type = true ∧ isPositiveDecimal length = true ∧
        itr = itr' ∧ overwrite = overwrite' := by
  constructor
  · intro h
    unfold storeCall at h
    cases key? with
    | none => cases h
    | some key =>
      cases type? with
      | none => cases h
      | some type =>
        dsimp only at h
        split_ifs at h with htype
        cases length? with
        | none => cases h
        | some length =>
          dsimp only at h
          split_ifs at h with hlength
          cases h
          exact ⟨rfl, rfl, rfl, by simpa using htype, by simpa using hlength, rfl, rfl⟩
  · rintro ⟨rfl, rfl, rfl, htype, hlength, rfl, rfl⟩
    simp [storeCall, htype, hlength]

section NoSet

variable {key type length : List Byte} {itr : ℕ} {overwrite : Bool}

theorem keyCall_ne_set {call : List Byte → Call}
    (hcall : ∀ k, call k ≠ .set key type length itr overwrite) (k : Option (List Byte)) :
    keyCall call k ≠ .set key type length itr overwrite := by
  cases k with
  | none => simp [keyCall]
  | some k => exact hcall k

theorem counterCall_ne_set {call : List Byte → Option (List Byte) → Option (List Byte) → Call}
    (hcall : ∀ k o i, call k o i ≠ .set key type length itr overwrite)
    (k offset initial : Option (List Byte)) :
    counterCall call k offset initial ≠ .set key type length itr overwrite := by
  unfold counterCall
  cases k with
  | none => simp
  | some k =>
    dsimp only
    split_ifs
    · simp
    · simp
    · exact hcall k offset initial

theorem bareCall_ne_set {call : Call} (hcall : call ≠ .set key type length itr overwrite)
    (atEnd : Bool) : bareCall call atEnd ≠ .set key type length itr overwrite := by
  unfold bareCall
  split_ifs
  · exact hcall
  · simp

end NoSet

/-- The scan of three arguments takes the block apart or runs off it. -/
theorem getThreeArgs_cases (pre mem : List Byte) :
    ((0 : Byte) ∉ mem ∧ getThreeArgs (cursorAt pre mem) = none) ∨
      ∃ arg₁ s₁ b₁ r₁ arg₂ s₂ b₂ r₂ arg₃ s₃ b₃ r₃ pre',
        ArgAt mem arg₁ s₁ b₁ r₁ ∧ ArgAt (b₁ :: r₁) arg₂ s₂ b₂ r₂ ∧ ArgAt (b₂ :: r₂) arg₃ s₃ b₃ r₃ ∧
        getThreeArgs (cursorAt pre mem) =
          some (scannedArg arg₁ s₁, scannedArg arg₂ s₂, scannedArg arg₃ s₃,
            cursorAt pre' (b₃ :: r₃)) := by
  unfold getThreeArgs
  simp only [Option.bind_eq_bind]
  rcases exists_argAt mem with ⟨arg₁, s₁, b₁, r₁, h₁⟩ | ⟨h0, hoff⟩
  · rcases exists_argAt (b₁ :: r₁) with ⟨arg₂, s₂, b₂, r₂, h₂⟩ | ⟨h0, hoff⟩
    · rcases exists_argAt (b₂ :: r₂) with ⟨arg₃, s₃, b₃, r₃, h₃⟩ | ⟨h0, hoff⟩
      · right
        refine ⟨arg₁, s₁, b₁, r₁, arg₂, s₂, b₂, r₂, arg₃, s₃, b₃, r₃,
          pre ++ arg₁ ++ List.replicate s₁.length 0 ++ arg₂ ++ List.replicate s₂.length 0 ++ arg₃ ++
            List.replicate s₃.length 0, h₁, h₂, h₃, ?_⟩
        simp only [getNextArg_argAt _ h₁, getNextArg_argAt _ h₂, getNextArg_argAt _ h₃,
          Option.bind_some]
        rfl
      · refine Or.inl ⟨fun hmem => h0 (h₂.zero_mem (h₁.zero_mem hmem)), ?_⟩
        simp only [getNextArg_argAt _ h₁, getNextArg_argAt _ h₂, hoff, Option.bind_some,
          Option.bind_none]
    · refine Or.inl ⟨fun hmem => h0 (h₁.zero_mem hmem), ?_⟩
      simp only [getNextArg_argAt _ h₁, hoff, Option.bind_some, Option.bind_none]
  · refine Or.inl ⟨h0, ?_⟩
    simp only [hoff, Option.bind_none]

/-- `handle_command` behind its first `GET_NEXT_ARG`. -/
theorem handleCommandCall_argAt {command cmd seps rest : List Byte} {b : Byte}
    (h : ArgAt command cmd seps b rest) :
    handleCommandCall command =
      match scannedArg cmd seps with
      | none => some (.nothing, cmd ++ List.replicate seps.length 0 ++ b :: rest)
      | some cmd =>
        match commandWord cmd with
        | none => some (.badRequest invalidCommand,
            cmd ++ List.replicate seps.length 0 ++ b :: rest)
        | some word =>
          wordCall (cursorAt (cmd ++ List.replicate seps.length 0) (b :: rest)) word := by
  have hstart : ({ mem := command, itr := 0 } : Cursor) = cursorAt [] command := rfl
  unfold handleCommandCall
  rw [hstart, getNextArg_argAt [] h, List.nil_append]
  unfold scannedArg
  by_cases hne : cmd = [] ∧ seps = []
  · simp only [if_pos hne]
    rfl
  · simp only [if_neg hne, Option.bind_eq_bind, Option.bind_some]
    cases commandWord cmd <;> rfl

/-- Only SET and ADD lead to `memuncached_set`, behind the checks of TYPE and
    LENGTH. -/
theorem wordCall_eq_set {c : Cursor} {word : CommandWord} {key type length : List Byte} {itr : ℕ}
    {overwrite : Bool} {mem : List Byte}
    (h : wordCall c word = some (.set key type length itr overwrite, mem)) :
    (overwrite = true → word = .set) ∧ isPositiveDecimal type = true ∧
      isPositiveDecimal length = true := by
  cases word with
  | set =>
    obtain ⟨args, -, hargs⟩ := Option.bind_eq_some_iff.mp h
    injection hargs with hargs
    injection hargs with hcall
    obtain ⟨-, -, -, htype, hlength, -, -⟩ := storeCall_eq_set.mp hcall
    exact ⟨fun _ => rfl, htype, hlength⟩
  | add =>
    obtain ⟨args, -, hargs⟩ := Option.bind_eq_some_iff.mp h
    injection hargs with hargs
    injection hargs with hcall
    obtain ⟨-, -, -, htype, hlength, -, hover⟩ := storeCall_eq_set.mp hcall
    exact ⟨fun htrue => absurd (hover.trans htrue) (by decide), htype, hlength⟩
  | bye =>
    obtain ⟨b, -, hb⟩ := Option.bind_eq_some_iff.mp h
    injection hb with hb
    injection hb with hcall
    exact absurd hcall (bareCall_ne_set (by simp) _)
  | stt =>
    obtain ⟨b, -, hb⟩ := Option.bind_eq_some_iff.mp h
    injection hb with hb
    injection hb with hcall
    exact absurd hcall (bareCall_ne_set (by simp) _)
  | ver =>
    obtain ⟨b, -, hb⟩ := Option.bind_eq_some_iff.mp h
    injection hb with hb
    injection hb with hcall
    exact absurd hcall (bareCall_ne_set (by simp) _)
  | dec =>
    obtain ⟨args, -, hargs⟩ := Option.bind_eq_some_iff.mp h
    injection hargs with hargs
    injection hargs with hcall
    exact absurd hcall (counterCall_ne_set (by simp) _ _ _)
  | inc =>
    obtain ⟨args, -, hargs⟩ := Option.bind_eq_some_iff.mp h
    injection hargs with hargs
    injection hargs with hcall
    exact absurd hcall (counterCall_ne_set (by simp) _ _ _)
  | del =>
    obtain ⟨arg, -, harg⟩ := Option.bind_eq_some_iff.mp h
    injection harg with harg
    injection harg with hcall
    exact absurd hcall (keyCall_ne_set (by simp) _)
  | get =>
    obtain ⟨arg, -, harg⟩ := Option.bind_eq_some_iff.mp h
    injection harg with harg
    injection harg with hcall
    exact absurd hcall (keyCall_ne_set (by simp) _)

theorem wordCall_set {c : Cursor} {word : CommandWord} {key type length : List Byte} {itr : ℕ}
    {mem : List Byte} (h : wordCall c word = some (.set key type length itr true, mem)) :
    word = .set := (wordCall_eq_set h).1 rfl

/-- `handle_command` has checked the LENGTH that it calls `memuncached_set`
    with. -/
theorem handleCommandCall_set_length {command key type length : List Byte} {itr : ℕ}
    {overwrite : Bool} {mem : List Byte}
    (h : handleCommandCall command = some (.set key type length itr overwrite, mem)) :
    isPositiveDecimal length = true := by
  obtain ⟨⟨cmd, c⟩, -, hcmd⟩ := Option.bind_eq_some_iff.mp h
  cases cmd with
  | none => cases hcmd
  | some cmd =>
    dsimp only at hcmd
    cases hword : commandWord cmd with
    | none =>
      rw [hword] at hcmd
      cases hcmd
    | some word =>
      rw [hword] at hcmd
      exact (wordCall_eq_set hcmd).2.2

/-- `handle_command` calls `memuncached_set` on the commands that start with SET
    and three arguments that pass the checks. -/
theorem handleCommandCall_set_iff {command key type length : List Byte} :
    (∃ itr mem, handleCommandCall command = some (.set key type length itr true, mem)) ↔
      ∃ cmd rest, Args command [cmd, key, type, length] rest ∧ commandWord cmd = some .set ∧
        isPositiveDecimal type = true ∧ isPositiveDecimal length = true := by
  have hempty : commandWord [] = none := by decide
  constructor
  · rintro ⟨itr, mem, h⟩
    rcases exists_argAt command with ⟨cmd, s, b, rest, hcmd⟩ | ⟨-, hoff⟩
    · rw [handleCommandCall_argAt hcmd] at h
      cases hscan : scannedArg cmd s with
      | none =>
        rw [hscan] at h
        cases h
      | some cmd' =>
        have hsame : cmd' = cmd := by
          unfold scannedArg at hscan
          split_ifs at hscan
          injection hscan with hscan
          exact hscan.symm
        subst hsame
        rw [hscan] at h
        cases hword : commandWord cmd' with
        | none =>
          simp only [hword] at h
          cases h
        | some word =>
          simp only [hword] at h
          have hset := wordCall_set h
          subst hset
          rcases getThreeArgs_cases (cmd' ++ List.replicate s.length 0) (b :: rest) with
            ⟨-, hoff⟩ | ⟨a₁, s₁, b₁, r₁, a₂, s₂, b₂, r₂, a₃, s₃, b₃, r₃, pre, h₁, h₂, h₃, hargs⟩
          · simp only [wordCall, hoff] at h
            cases h
          · simp only [wordCall, hargs, Option.bind_eq_bind, Option.bind_some] at h
            injection h with h
            injection h with h
            obtain ⟨hk, ht, hl, htype, hlength, -, -⟩ := storeCall_eq_set.mp h
            obtain ⟨rfl, hk0⟩ := (scannedArg_eq_some hcmd.stop h₁).mp hk
            obtain ⟨rfl, ht0⟩ := (scannedArg_eq_some h₁.stop h₂).mp ht
            obtain ⟨rfl, hl0⟩ := (scannedArg_eq_some h₂.stop h₃).mp hl
            have hc0 : cmd' ≠ [] := by
              rintro rfl
              rw [hempty] at hword
              cases hword
            exact ⟨cmd', _, .cons hcmd hc0 (.cons h₁ hk0 (.cons h₂ ht0 (.cons h₃ hl0 (.nil _)))),
              hword, htype, hlength⟩
    · have hstart : ({ mem := command, itr := 0 } : Cursor) = cursorAt [] command := rfl
      unfold handleCommandCall at h
      rw [hstart, hoff] at h
      cases h
  · rintro ⟨cmd, rest, hargs, hword, htype, hlength⟩
    obtain _ | ⟨hcmd, hc0, _ | ⟨h₁, hk0, _ | ⟨h₂, ht0, _ | ⟨h₃, hl0, -⟩⟩⟩⟩ := hargs
    have hscan : ∀ {arg seps : List Byte}, arg ≠ [] → scannedArg arg seps = some arg :=
      fun hne => if_neg fun hboth => hne hboth.1
    have hcall : ∀ itr, storeCall (some key) (some type) (some length) itr true =
        .set key type length itr true :=
      fun itr => storeCall_eq_set.mpr ⟨rfl, rfl, rfl, htype, hlength, rfl, rfl⟩
    rw [handleCommandCall_argAt hcmd, hscan hc0]
    simp only [hword, wordCall, getThreeArgs, getNextArg_argAt _ h₁, getNextArg_argAt _ h₂,
      getNextArg_argAt _ h₃, Option.bind_eq_bind, Option.bind_some, hscan hk0, hscan ht0, hscan hl0,
      hcall, Option.pure_def]
    exact ⟨_, _, rfl⟩

end Memuncached.Server
