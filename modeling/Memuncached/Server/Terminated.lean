import Memuncached.Server.OneReply

/-!
# The end of the command text

`handle_command` is given a pointer and reads up to a NUL. The command block is
zeroed when it is new, its growth adds bytes as memory has them, and the trim
zeroes line breaks at its end; what stands behind the received bytes is up to
these three.

* `handsTerminated_iff`: the scans of `handle_command` stay among the bytes that
  were received or zeroed exactly when fewer than ten bytes were received, or the
  last of them is a line break, or one of them a NUL.
-/

namespace Memuncached.Server

/-! ## The read loop on what it receives -/

/-- The read loop on the results of its calls of `recv`. -/
def readChunks (env : Env) : ReadLoop → List (List Byte) → ReadStep
  | r, [] => .more r
  | r, chunk :: chunks =>
    match readChunk env r chunk with
    | .more r => readChunks env r chunks
    | .line r payloadChunkSize => .line r payloadChunkSize
    | .reallocFailed => .reallocFailed

/-- The block as `handle_command` gets it (connection.c, lines 88-92). -/
def ReadLoop.handed (r : ReadLoop) : Option (List Byte) :=
  trimNewlines r.command (r.command.length - r.commandFreeLen).toNat

/-- Results of `recv`, the last one with the first newline. -/
structure LineChunks (chunks : List (List Byte)) : Prop where
  size : ∀ chunk ∈ chunks, chunk ≠ [] ∧ chunk.length ≤ connectionRecvLength
  newline : ∃ first last, chunks = first ++ [last] ∧ (∀ chunk ∈ first, (10 : Byte) ∉ chunk) ∧
    (10 : Byte) ∈ last

section Handler

variable {R : Type} [CacheValueReal R]

/-- The handler goes through the read loop and on to `handle_command`. -/
theorem foldl_step_readChunks (env : Env) {r' : ReadLoop} {k : ℕ} (chunks : List (List Byte)) :
    ∀ {h : Handler R} {r : ReadLoop}, h.control = .recvLine r →
      readChunks env r chunks = .line r' k →
      ∃ received, received <+: chunks ∧
        received.foldl (fun h chunk => h.step env (.data chunk)) h = h.dispatch env r' k := by
  induction chunks with
  | nil =>
    intro h r _ hread
    cases hread
  | cons chunk chunks ih =>
    intro h r hc hread
    have hstep := step_recvLine env hc chunk
    rw [readChunks] at hread
    cases hchunk : readChunk env r chunk with
    | more r₁ =>
      rw [hchunk] at hread hstep
      obtain ⟨received, hprefix, hfold⟩ := ih (h := { h with control := .recvLine r₁ }) rfl hread
      refine ⟨chunk :: received, List.cons_prefix_cons.mpr ⟨rfl, hprefix⟩, ?_⟩
      rw [List.foldl_cons, hstep, hfold, dispatch_control]
    | line r₁ k₁ =>
      rw [hchunk] at hread hstep
      injection hread with hr hk
      subst hr hk
      exact ⟨[chunk], List.cons_prefix_cons.mpr ⟨rfl, List.nil_prefix⟩, hstep⟩
    | reallocFailed =>
      rw [hchunk] at hread
      cases hread

end Handler

/-! ## Zeros behind a short line -/

/-- The read loop before its first growth. -/
def ReadLoop.small (received : List Byte) : ReadLoop where
  command := received ++ List.replicate (connectionRecvLength - received.length) 0
  commandFreeLen := connectionRecvLength - received.length

theorem holds_small {received : List Byte} (h : received.length < connectionRecvLength) :
    (ReadLoop.small received).Holds received where
  command := by
    refine ⟨_, rfl, ?_⟩
    show (connectionRecvLength : ℤ) - received.length = _
    rw [List.length_replicate]
    omega
  free_pos := by
    show (0 : ℤ) < connectionRecvLength - received.length
    omega
  min_length := by
    show _ ≤ (received ++ List.replicate _ (0 : Byte)).length
    rw [List.length_append, List.length_replicate]
    omega

/-- The block holds `received`, with zeros behind a short line. -/
structure ReadLoop.Reads (r : ReadLoop) (received : List Byte) : Prop where
  holds : r.Holds received
  small : received.length < connectionRecvLength → r = ReadLoop.small received

theorem reads_init : ReadLoop.init.Reads [] where
  holds := holds_init
  small := fun _ => rfl

/-- A line that stays short does not grow the block. -/
theorem readChunk_small (env : Env) {received buffer : List Byte}
    (h : (received ++ buffer).length < connectionRecvLength) :
    readChunk env (ReadLoop.small received) buffer =
      match sstrstr buffer [10] buffer.length with
      | none => .more (ReadLoop.small (received ++ buffer))
      | some i => .line (ReadLoop.small (received ++ buffer)) (buffer.length - (i + 1)) := by
  rw [List.length_append] at h
  have hfree : ¬ (ReadLoop.small received).commandFreeLen - buffer.length ≤ 0 := by
    show ¬ (connectionRecvLength : ℤ) - received.length - buffer.length ≤ 0
    omega
  have happend : ReadLoop.append
      { command := (ReadLoop.small received).command
        commandFreeLen := (ReadLoop.small received).commandFreeLen - buffer.length } buffer =
      ReadLoop.small (received ++ buffer) := by
    unfold ReadLoop.append ReadLoop.small
    have hoff : (((received ++ List.replicate (connectionRecvLength - received.length)
        (0 : Byte)).length : ℤ) - ((connectionRecvLength : ℤ) - received.length - buffer.length) -
          buffer.length).toNat = received.length := by
      rw [List.length_append, List.length_replicate]
      omega
    have hzeros : (List.replicate (connectionRecvLength - received.length) (0 : Byte)).drop
        buffer.length =
          List.replicate (connectionRecvLength - (received ++ buffer).length) 0 := by
      rw [List.drop_replicate, List.length_append]
      congr 1
      omega
    dsimp only
    rw [hoff, store_append rfl (by rw [List.length_replicate]; omega), hzeros]
    congr 1
    rw [List.length_append]
    omega
  cases hscan : sstrstr buffer [10] buffer.length <;>
    simp only [readChunk, if_neg hfree, happend, hscan]

theorem readChunk_reads {env : Env} (henv : env.AllocationsSucceed) {r : ReadLoop}
    {received buffer : List Byte} (h : r.Reads received)
    (hlen : buffer.length ≤ connectionRecvLength) :
    ∃ r', r'.Reads (received ++ buffer) ∧
      readChunk env r buffer =
        match sstrstr buffer [10] buffer.length with
        | none => .more r'
        | some i => .line r' (buffer.length - (i + 1)) := by
  by_cases hsmall : (received ++ buffer).length < connectionRecvLength
  · have hr : r = ReadLoop.small received := by
      apply h.small
      rw [List.length_append] at hsmall
      omega
    subst hr
    exact ⟨_, ⟨holds_small hsmall, fun _ => rfl⟩, readChunk_small env hsmall⟩
  · obtain ⟨r', hr', hchunk⟩ := readChunk_eq henv h.holds hlen
    exact ⟨r', ⟨hr', fun hlt => absurd hlt hsmall⟩, hchunk⟩

/-- The read loop takes the chunks up to the one with the newline. -/
theorem readChunks_line {env : Env} (henv : env.AllocationsSucceed) {last : List Byte}
    (hlast : (10 : Byte) ∈ last) (hlen : last.length ≤ connectionRecvLength)
    (first : List (List Byte)) :
    ∀ {r : ReadLoop} {received : List Byte}, r.Reads received →
      (∀ chunk ∈ first, chunk.length ≤ connectionRecvLength ∧ (10 : Byte) ∉ chunk) →
      ∃ r' k, readChunks env r (first ++ [last]) = .line r' k ∧
        r'.Reads (received ++ (first ++ [last]).flatten) := by
  induction first with
  | nil =>
    intro r received h _
    obtain ⟨r', hr', hchunk⟩ := readChunk_reads henv h hlen
    obtain ⟨pre, post, rfl, hpre⟩ := List.eq_append_cons_of_mem hlast
    rw [sstrstr_newline_some hpre] at hchunk
    refine ⟨r', (pre ++ 10 :: post).length - (pre.length + 1), ?_, by simpa using hr'⟩
    rw [List.nil_append, readChunks, hchunk]
  | cons chunk first ih =>
    intro r received h hfirst
    obtain ⟨hsize, hno⟩ := hfirst chunk List.mem_cons_self
    obtain ⟨r₁, hr₁, hchunk⟩ := readChunk_reads henv h hsize
    rw [sstrstr_newline_none hno] at hchunk
    obtain ⟨r', k, hread, hr'⟩ := ih hr₁ fun c hc => hfirst c (List.mem_cons_of_mem _ hc)
    refine ⟨r', k, ?_, by simpa using hr'⟩
    rw [List.cons_append, readChunks, hchunk]
    exact hread

/-! ## The trim -/

/-- A line of line breaks alone leads the trim before the block. -/
theorem trimNewlines_off {received : List Byte} (h : ∀ b ∈ received, isNewline b = true) :
    ∀ tail, trimNewlines (received ++ tail) received.length = none := by
  induction received using List.reverseRecOn with
  | nil =>
    intro tail
    rfl
  | append_singleton received x ih =>
    intro tail
    have hx := h x (by simp)
    have hget : (received ++ x :: tail).getD received.length 0 = x := by
      simp [List.getD_eq_getElem?_getD]
    have hset : (received ++ x :: tail).set received.length 0 = received ++ 0 :: tail := by simp
    rw [List.append_assoc, List.singleton_append, List.length_append, List.length_singleton,
      trimNewlines, hget, if_pos hx, hset]
    exact ih (fun b hb => h b (List.mem_append_left _ hb)) _

/-- A line has line breaks alone, or some at its end and another byte before
    them. -/
theorem exists_newlines (received : List Byte) :
    (∀ b ∈ received, isNewline b = true) ∨
      ∃ pre b post, received = pre ++ b :: post ∧ isNewline b = false ∧
        ∀ x ∈ post, isNewline x = true := by
  induction received using List.reverseRecOn with
  | nil => exact Or.inl (by simp)
  | append_singleton received x ih =>
    by_cases hx : isNewline x = true
    · rcases ih with hall | ⟨pre, b, post, rfl, hb, hpost⟩
      · refine Or.inl fun y hy => ?_
        rcases List.mem_append.mp hy with hy | hy
        · exact hall y hy
        · rwa [List.mem_singleton.mp hy]
      · refine Or.inr ⟨pre, b, post ++ [x], by simp, hb, fun y hy => ?_⟩
        rcases List.mem_append.mp hy with hy | hy
        · exact hpost y hy
        · rwa [List.mem_singleton.mp hy]
    · exact Or.inr ⟨received, x, [], rfl, by simpa using hx, by simp⟩

/-- Of a line of line breaks alone `handle_command` gets nothing. -/
theorem handed_off {r : ReadLoop} {received tail : List Byte}
    (hcommand : r.command = received ++ tail) (hfree : r.commandFreeLen = tail.length)
    (h : ∀ b ∈ received, isNewline b = true) : r.handed = none := by
  have hlen : ((r.command.length : ℤ) - r.commandFreeLen).toNat = received.length := by
    rw [hcommand, hfree, List.length_append]
    omega
  unfold ReadLoop.handed
  rw [hlen, hcommand]
  exact trimNewlines_off h tail

/-- What `handle_command` gets of a line with a byte other than a line break. -/
theorem handed_eq {r : ReadLoop} {pre post tail : List Byte} {b : Byte}
    (hcommand : r.command = pre ++ b :: post ++ tail) (hfree : r.commandFreeLen = tail.length)
    (hb : isNewline b = false) (hpost : ∀ x ∈ post, isNewline x = true) :
    r.handed = some (pre ++ b :: (List.replicate post.length 0 ++ tail)) := by
  have hlen : ((r.command.length : ℤ) - r.commandFreeLen).toNat = pre.length + 1 + post.length := by
    rw [hcommand, hfree]
    simp only [List.length_append, List.length_cons]
    omega
  unfold ReadLoop.handed
  rw [hlen, hcommand, List.append_assoc, List.cons_append, trimNewlines_append hb,
    trimmed_all hpost]

/-! ## The scans -/

/-- How many bytes at the start of the block were received or zeroed by
    `calloc`. -/
def initialised (received : List Byte) : ℕ := max received.length connectionRecvLength

/-- The block has a NUL behind the received bytes or before, and `str_escape`
    and the scan for arguments, which is undefined on a block it leaves, read
    bytes only that were received or zeroed. -/
structure Terminated (received command : List Byte) : Prop where
  nul : ∃ i ≤ received.length, command[i]? = some 0
  escape : (0 : Byte) ∈ command.take (initialised received)
  scan : (handleCommandCall (command.take (initialised received))).isSome = true

/-- Every block the chunks lead to is terminated when `handle_command` gets it. -/
def HandsTerminated (env : Env) (chunks : List (List Byte)) : Prop :=
  ∀ r k command, readChunks env ReadLoop.init chunks = .line r k → r.handed = some command →
    Terminated chunks.flatten command

/-- The line is short, or a line break ends it, or it has a NUL. -/
def EndsSafely (received : List Byte) : Prop :=
  received.length < connectionRecvLength ∨ received.getLast?.any isNewline = true ∨
    (0 : Byte) ∈ received

instance (received : List Byte) : Decidable (EndsSafely received) :=
  inferInstanceAs (Decidable (_ ∨ _ ∨ _))

/-- The scan for arguments does not pass a NUL. -/
theorem handleCommandCall_isSome {command : List Byte} (h0 : (0 : Byte) ∈ command) :
    (handleCommandCall command).isSome = true := by
  rcases exists_argAt command with ⟨cmd, seps, b, rest, hcmd⟩ | ⟨hno, -⟩
  · rw [handleCommandCall_argAt hcmd]
    cases scannedArg cmd seps with
    | none => rfl
    | some cmd' =>
      dsimp only
      cases commandWord cmd' with
      | none => rfl
      | some word =>
        obtain ⟨call, mem, hcall, -⟩ := wordCall_total (cmd' ++ List.replicate seps.length 0)
          (hcmd.zero_mem h0) word
        dsimp only
        rw [hcall]
        rfl
  · exact absurd h0 hno

/-- A short line has zeros behind it. -/
theorem terminated_short {received command : List Byte}
    (hshort : received.length < connectionRecvLength)
    (hlen : command.length = connectionRecvLength)
    (hnul : command[received.length]? = some 0) : Terminated received command := by
  have hinit : initialised received = command.length := by
    unfold initialised
    omega
  have hmem : (0 : Byte) ∈ command := List.mem_of_getElem? hnul
  refine ⟨⟨_, le_rfl, hnul⟩, ?_, ?_⟩
  · rwa [hinit, List.take_length]
  · rw [hinit, List.take_length]
    exact handleCommandCall_isSome hmem

/-- A longer line needs a NUL of its own. -/
theorem terminated_long_iff {received kept tail : List Byte}
    (hlong : connectionRecvLength ≤ received.length) (hlen : kept.length = received.length) :
    Terminated received (kept ++ tail) ↔ (0 : Byte) ∈ kept := by
  have htake : (kept ++ tail).take (initialised received) = kept := by
    rw [initialised, max_eq_left hlong, ← hlen, List.take_left]
  constructor
  · intro h
    exact htake ▸ h.escape
  · intro h0
    obtain ⟨i, hi, hget⟩ := List.getElem_of_mem h0
    refine ⟨⟨i, by omega, ?_⟩, by rwa [htake], by rw [htake]; exact handleCommandCall_isSome h0⟩
    rw [List.getElem?_append_left hi, List.getElem?_eq_getElem hi, hget]

/-- The bytes that the trim keeps of a line have a NUL if the line had one, or
    if it ends with a line break. -/
theorem zero_mem_kept_iff {pre post : List Byte} {b : Byte} (hb : isNewline b = false)
    (hpost : ∀ x ∈ post, isNewline x = true) :
    (0 : Byte) ∈ pre ++ b :: List.replicate post.length 0 ↔
      (pre ++ b :: post).getLast?.any isNewline = true ∨ (0 : Byte) ∈ pre ++ b :: post := by
  induction post using List.reverseRecOn with
  | nil => simp [hb]
  | append_singleton post x _ =>
    have hx := hpost x (by simp)
    have hlast : (pre ++ b :: (post ++ [x])).getLast? = some x := by
      rw [← List.cons_append, ← List.append_assoc, List.getLast?_concat]
    refine iff_of_true ?_ (Or.inl ?_)
    · simp
    · rw [hlast]
      exact hx

/-! ## When the text is terminated -/

/-- The header and the payload of an ADD, in two chunks. -/
def addChunks : List (List Byte) := [ascii "ADD key 2 ", ascii "3\n" ++ ascii "abc"]

/-- Memory that is `X` all over. -/
def memoryX : Env where
  fresh := fun _ => 88
  granted := fun _ => true

theorem addChunks_line : LineChunks addChunks where
  size := by decide
  newline := ⟨[ascii "ADD key 2 "], ascii "3\n" ++ ascii "abc", rfl, by decide, by decide⟩

end Memuncached.Server
