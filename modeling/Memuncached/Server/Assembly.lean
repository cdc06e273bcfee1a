import Memuncached.Server.Terminated

/-!
# The command block over a run

The write position of the read loop is computed from two variables, and the one
that counts the free bytes is corrected with the old length before the block is
doubled. Over any run of chunks the position stays behind what was received.

* `readChunks_more`: chunks without a newline keep the loop running.
* `readLoop_assembles`: behind every iteration the block starts with all that
  was received and has room for a byte more, and the copy of the iteration was
  made within the block.
-/

namespace Memuncached.Server

/-! ## Specification -/

/-- Results of `recv`, none but the last with a newline. -/
structure RecvChunks (chunks : List (List Byte)) : Prop where
  size : ∀ chunk ∈ chunks, chunk ≠ [] ∧ chunk.length ≤ connectionRecvLength
  newline : ∀ chunk ∈ chunks.dropLast, (10 : Byte) ∉ chunk

/-- The state of the read loop behind an iteration. -/
def ReadStep.loop : ReadStep → Option ReadLoop
  | .more r => some r
  | .line r _ => some r
  | .reallocFailed => none

/-- Where `memcpy` writes: `command_len - command_free_len - read_size`. -/
def ReadLoop.copyOffset (r : ReadLoop) (readSize : ℕ) : ℤ :=
  r.command.length - r.commandFreeLen - readSize

/-- `command_free_len` is between 1 and `command_len`, and the bytes before the
    free ones are those received. -/
structure ReadLoop.Assembled (r : ReadLoop) (received : List Byte) : Prop where
  free_pos : 1 ≤ r.commandFreeLen
  free_le : r.commandFreeLen ≤ r.command.length
  received : r.command.take (r.command.length - r.commandFreeLen).toNat = received

/-- An iteration on `chunk` behind `received` copies within the block and leaves
    it assembled. -/
structure Assembles (env : Env) (r : ReadLoop) (received chunk : List Byte) (room : ReadLoop) :
    Prop where
  makeRoom : r.makeRoom env chunk.length = some room
  copy_nonneg : 0 ≤ room.copyOffset chunk.length
  copy_le : room.copyOffset chunk.length + chunk.length ≤ room.command.length
  loop : (readChunk env r chunk).loop = some (room.append chunk)
  assembled : (room.append chunk).Assembled (received ++ chunk)

/-! ## One iteration -/

theorem ReadLoop.Holds.assembled {r : ReadLoop} {received : List Byte} (h : r.Holds received) :
    r.Assembled received := by
  obtain ⟨⟨tail, hcommand, hfree⟩, hpos, -⟩ := h
  have hlen : r.command.length = received.length + tail.length := by
    rw [hcommand, List.length_append]
  refine ⟨by omega, by omega, ?_⟩
  have hreceived : ((r.command.length : ℤ) - r.commandFreeLen).toNat = received.length := by
    omega
  rw [hreceived, hcommand, List.take_left]

theorem assembles {env : Env} (henv : env.AllocationsSucceed) {r : ReadLoop}
    {received chunk : List Byte} (h : r.Holds received)
    (hsize : chunk.length ≤ connectionRecvLength) :
    ∃ room, Assembles env r received chunk room := by
  obtain ⟨tail, hroom, hlt, hmin⟩ := makeRoom_eq henv h hsize
  have hoffset : ReadLoop.copyOffset
      { command := received ++ tail, commandFreeLen := (tail.length : ℤ) - chunk.length }
      chunk.length = received.length := by
    show ((received ++ tail).length : ℤ) - ((tail.length : ℤ) - chunk.length) - chunk.length = _
    rw [List.length_append]
    omega
  refine ⟨_, hroom, ?_, ?_, ?_, (append_holds hlt hmin).assembled⟩
  · rw [hoffset]
    omega
  · show _ ≤ ((received ++ tail).length : ℤ)
    rw [hoffset, List.length_append]
    omega
  · rw [readChunk_makeRoom, hroom]
    dsimp only
    cases sstrstr chunk [10] chunk.length with
    | none => rfl
    | some i => rfl

/-! ## A run -/

/-- Chunks without a newline keep the loop running, and it holds them all. -/
theorem readChunks_more {env : Env} (henv : env.AllocationsSucceed) (chunks : List (List Byte)) :
    ∀ {r : ReadLoop} {received : List Byte}, r.Holds received →
      (∀ chunk ∈ chunks, chunk.length ≤ connectionRecvLength ∧ (10 : Byte) ∉ chunk) →
      ∃ r', readChunks env r chunks = .more r' ∧ r'.Holds (received ++ chunks.flatten) := by
  induction chunks with
  | nil =>
    intro r received h _
    exact ⟨r, rfl, by simpa using h⟩
  | cons chunk chunks ih =>
    intro r received h hchunks
    obtain ⟨hsize, hno⟩ := hchunks chunk List.mem_cons_self
    obtain ⟨r₁, hr₁, hchunk⟩ := readChunk_eq henv h hsize
    rw [sstrstr_newline_none hno] at hchunk
    obtain ⟨r', hread, hr'⟩ := ih hr₁ fun c hc => hchunks c (List.mem_cons_of_mem _ hc)
    refine ⟨r', ?_, by simpa using hr'⟩
    rw [readChunks, hchunk]
    exact hread

/-- The iteration on `chunk`, in any run of chunks. -/
theorem readLoop_assembles {env : Env} (henv : env.AllocationsSucceed)
    {chunks : List (List Byte)} (h : RecvChunks chunks) {before rest : List (List Byte)}
    {chunk : List Byte} (hsplit : chunks = before ++ chunk :: rest) :
    ∃ r room, readChunks env ReadLoop.init before = .more r ∧
      Assembles env r before.flatten chunk room := by
  subst hsplit
  have hbefore : ∀ c ∈ before, c.length ≤ connectionRecvLength ∧ (10 : Byte) ∉ c := by
    intro c hc
    refine ⟨(h.size c (List.mem_append_left _ hc)).2, h.newline c ?_⟩
    rw [List.dropLast_append_cons]
    exact List.mem_append_left _ hc
  obtain ⟨r, hread, hr⟩ := readChunks_more henv before holds_init hbefore
  rw [List.nil_append] at hr
  obtain ⟨room, hassembles⟩ := assembles henv hr (h.size chunk (by simp)).2
  exact ⟨r, room, hread, hassembles⟩

/-- The third chunk of a line, behind the one that doubled the block. -/
theorem readLoop_assembles_third :
    ∃ r room, readChunks Env.zero ReadLoop.init [ascii "GET a-very", ascii "-long-"] = .more r ∧
      Assembles Env.zero r (ascii "GET a-very-long-") (ascii "key\r\n") room := by
  have hchunks : RecvChunks [ascii "GET a-very", ascii "-long-", ascii "key\r\n"] :=
    ⟨by decide, by decide⟩
  exact readLoop_assembles Env.zero_allocationsSucceed hchunks (rfl :
    _ = [ascii "GET a-very", ascii "-long-"] ++ ascii "key\r\n" :: [])

end Memuncached.Server
