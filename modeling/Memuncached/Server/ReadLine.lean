import Memuncached.Server.Run

/-!
# Reading a line

What the read loop of the handler does to a stream, for every cut of it.

* `serve_readLine`: the read loop of `handle_connection` takes the line and what
  arrives in the same `recv` behind its newline, `spill` bytes, and goes on in
  `Handler.dispatch` with exactly these bytes in its block.
* `dispatch_eq`: from there `handle_command` sees the block with the line breaks
  at its end zeroed.
-/

namespace Memuncached.Server

open Segments

/-! ## The command block -/

/-- The block holds `received`, with room for at least one byte behind it. -/
structure ReadLoop.Holds (r : ReadLoop) (received : List Byte) : Prop where
  command : ∃ tail, r.command = received ++ tail ∧ r.commandFreeLen = tail.length
  free_pos : 0 < r.commandFreeLen
  min_length : connectionRecvLength ≤ r.command.length

theorem holds_init : ReadLoop.init.Holds [] where
  command := ⟨List.replicate 10 0, rfl, rfl⟩
  free_pos := by decide
  min_length := by decide

/-- `memcpy` behind the received bytes. -/
theorem append_holds {received tail buffer : List Byte} (h : buffer.length < tail.length)
    (hmin : connectionRecvLength ≤ received.length + tail.length) :
    (ReadLoop.append
      { command := received ++ tail, commandFreeLen := (tail.length : ℤ) - buffer.length }
      buffer).Holds (received ++ buffer) := by
  have hoff : (((received ++ tail).length : ℤ) - ((tail.length : ℤ) - buffer.length) -
      buffer.length).toNat = received.length := by
    rw [List.length_append]
    omega
  refine ⟨⟨tail.drop buffer.length, ?_, ?_⟩, ?_, ?_⟩
  · show store (received ++ tail) _ buffer = _
    rw [hoff, store_append rfl (by omega)]
  · show (tail.length : ℤ) - buffer.length = _
    rw [List.length_drop]
    omega
  · show (0 : ℤ) < (tail.length : ℤ) - buffer.length
    omega
  · show _ ≤ (store (received ++ tail) _ buffer).length
    rw [length_store, List.length_append]
    exact hmin

/-- The block and `command_free_len` as the `memcpy` finds them (connection.c,
    lines 63-78), behind `readSize` bytes received. -/
def ReadLoop.makeRoom (env : Env) (r : ReadLoop) (readSize : ℕ) : Option ReadLoop :=
  let freeLen := r.commandFreeLen - readSize
  if freeLen ≤ 0 then
    (realloc env r.command (2 * r.command.length)).map fun command =>
      { command := command, commandFreeLen := freeLen + r.command.length }
  else some { command := r.command, commandFreeLen := freeLen }

/-- An iteration makes room, copies and goes by the newline. -/
theorem readChunk_makeRoom (env : Env) (r : ReadLoop) (buffer : List Byte) :
    readChunk env r buffer =
      match r.makeRoom env buffer.length with
      | none => .reallocFailed
      | some room =>
        match sstrstr buffer [10] buffer.length with
        | none => .more (room.append buffer)
        | some i => .line (room.append buffer) (buffer.length - (i + 1)) := rfl

/-- One doubling is enough: the block then has room for the bytes received, and
    for one more. -/
theorem makeRoom_eq {env : Env} (henv : env.AllocationsSucceed) {r : ReadLoop}
    {received : List Byte} (h : r.Holds received) {n : ℕ} (hn : n ≤ connectionRecvLength) :
    ∃ tail, r.makeRoom env n =
        some { command := received ++ tail, commandFreeLen := (tail.length : ℤ) - n } ∧
      n < tail.length ∧ connectionRecvLength ≤ received.length + tail.length := by
  obtain ⟨⟨tail, hcommand, hfree⟩, hpos, hmin⟩ := h
  obtain ⟨command, freeLen⟩ := r
  dsimp only at hcommand hfree hpos hmin
  subst hcommand hfree
  rw [List.length_append] at hmin
  by_cases hgrow : (tail.length : ℤ) - n ≤ 0
  · obtain ⟨fresh, hfresh⟩ : ∃ fresh, fresh = (List.range' (received ++ tail).length
        (2 * (received ++ tail).length - (received ++ tail).length)).map env.fresh := ⟨_, rfl⟩
    have hflen : fresh.length = received.length + tail.length := by
      rw [hfresh, List.length_map, List.length_range', List.length_append]
      omega
    have hroom : (tail.length : ℤ) - n + (received ++ tail).length =
        ((tail ++ fresh).length : ℤ) - n := by
      rw [List.length_append, List.length_append, hflen]
      omega
    refine ⟨tail ++ fresh, ?_, ?_, ?_⟩
    · simp only [ReadLoop.makeRoom, if_pos hgrow, realloc, henv _, if_true, Option.map_some,
        ← hfresh, hroom, List.append_assoc]
    · rw [List.length_append, hflen]
      omega
    · rw [List.length_append]
      omega
  · refine ⟨tail, ?_, by omega, hmin⟩
    simp only [ReadLoop.makeRoom, if_neg hgrow]

/-- An iteration of the read loop appends what it has received; it is the last
    one when that has a newline. -/
theorem readChunk_eq {env : Env} (henv : env.AllocationsSucceed) {r : ReadLoop}
    {received buffer : List Byte} (h : r.Holds received)
    (hlen : buffer.length ≤ connectionRecvLength) :
    ∃ r', r'.Holds (received ++ buffer) ∧
      readChunk env r buffer =
        match sstrstr buffer [10] buffer.length with
        | none => .more r'
        | some i => .line r' (buffer.length - (i + 1)) := by
  obtain ⟨tail, hroom, hlt, hmin⟩ := makeRoom_eq henv h hlen
  refine ⟨_, @append_holds received tail buffer hlt hmin, ?_⟩
  rw [readChunk_makeRoom, hroom]

/-! ## Line breaks at the end -/

/-- The line breaks at the end of `post`, zeroed. -/
def trimmed : List Byte → List Byte
  | [] => []
  | b :: post => (if (b :: post).all isNewline then 0 else b) :: trimmed post

@[simp] theorem length_trimmed (post : List Byte) : (trimmed post).length = post.length := by
  induction post with
  | nil => rfl
  | cons b post ih => rw [trimmed, List.length_cons, List.length_cons, ih]

theorem getElem?_trimmed (post : List Byte) (i : ℕ) :
    (trimmed post)[i]? = post[i]?.map fun b => if (post.drop i).all isNewline then 0 else b := by
  induction post generalizing i with
  | nil => rfl
  | cons b post ih =>
    cases i with
    | zero => rfl
    | succ i => exact ih i

/-- A byte is kept when it is not a line break or one behind it is not. -/
theorem trimmed_cons {x : Byte} {post : List Byte} (h : ∃ y ∈ x :: post, isNewline y = false) :
    trimmed (x :: post) = x :: trimmed post := by
  obtain ⟨y, hy, hn⟩ := h
  have hall : (x :: post).all isNewline = false := by
    rw [List.all_eq_false]
    exact ⟨y, hy, by simp [hn]⟩
  rw [trimmed, hall]
  rfl

/-- Bytes with a byte other than a line break behind them are kept. -/
theorem trimmed_append {a b : List Byte} (h : ∃ x ∈ b, isNewline x = false) :
    trimmed (a ++ b) = a ++ trimmed b := by
  induction a with
  | nil => rfl
  | cons x a ih =>
    obtain ⟨y, hy, hn⟩ := h
    rw [List.cons_append, trimmed_cons ⟨y, by simp [hy], hn⟩, ih, List.cons_append]

theorem trimmed_all {post : List Byte} (h : ∀ b ∈ post, isNewline b = true) :
    trimmed post = List.replicate post.length 0 := by
  induction post with
  | nil => rfl
  | cons b post ih =>
    rw [trimmed, if_pos (List.all_eq_true.mpr h), ih fun x hx => h x (List.mem_cons_of_mem _ hx)]
    rfl

theorem trimmed_concat_of_not (post : List Byte) {b : Byte} (hb : isNewline b = false) :
    trimmed (post ++ [b]) = post ++ [b] := by
  rw [trimmed_append ⟨b, by simp, hb⟩]
  simp [trimmed, hb]

theorem trimmed_concat_newline (post : List Byte) {b : Byte} (hb : isNewline b = true) :
    trimmed (post ++ [b]) = trimmed post ++ [0] := by
  induction post with
  | nil => simp [trimmed, hb]
  | cons x post ih =>
    rw [List.cons_append, trimmed, ih, trimmed]
    simp [hb]

section Handler

variable {R : Type} [CacheValueReal R]

/-! ## The read loop -/

/-- A `recv` on a stream with something left takes its first bytes. -/
theorem recv_cut {segs : List (List Byte)} {content : List Byte} (hcut : Cut segs content)
    (hne : content ≠ []) (ending : StreamEnd) {want : ℕ} (hw : 0 < want) :
    ∃ m, 0 < m ∧ m ≤ want ∧ m ≤ content.length ∧
      (∀ pos, 0 < pos → spill want segs pos =
        if pos ≤ m then m - pos else spill want (dropBytes m segs) (pos - m)) ∧
      Socket.recv { segments := segs, ending := ending } want =
        (.data (content.take m), { segments := dropBytes m segs, ending := ending }) := by
  obtain ⟨seg, segs', rfl⟩ := hcut.exists_cons hne
  have hseg := List.length_pos_of_ne_nil hcut.head_ne_nil
  have hflat : seg ++ segs'.flatten = content := by
    rw [← hcut.flatten, List.flatten_cons]
  have htake : seg.take want = content.take (min want seg.length) := by
    rw [← hflat, List.take_append_of_le_length (min_le_right _ _)]
    rcases le_total want seg.length with hle | hle
    · rw [min_eq_left hle]
    · rw [min_eq_right hle, List.take_of_length_le hle, List.take_length]
  refine ⟨min want seg.length, by omega, min_le_left _ _, ?_,
    fun pos hpos => spill_cons hcut.ne_nil hw hpos, ?_⟩
  · rw [← hflat, List.length_append]
    omega
  · rw [Socket.recv, if_neg (by omega), if_neg (by simp), read_cons hcut.ne_nil, htake]

/-- The read loop on a stream that starts with a line: it ends in
    `Handler.dispatch` with the line and the `spill` bytes behind it. -/
theorem serve_readLine {env : Env} (henv : env.AllocationsSucceed) (ending : StreamEnd)
    (line : List Byte) {h : Handler R} {r : ReadLoop} {received : List Byte}
    (hc : h.control = .recvLine r) (hr : r.Holds received) {segs : List (List Byte)}
    {rest : List Byte} (hcut : Cut segs (line ++ 10 :: rest)) (hline : (10 : Byte) ∉ line) :
    ∃ n r', r'.Holds
        (received ++ line ++ 10 :: rest.take (spill connectionRecvLength segs (line.length + 1))) ∧
      spill connectionRecvLength segs (line.length + 1) ≤ rest.length ∧
      serve env n (h, { segments := segs, ending := ending }) =
        (h.dispatch env r' (spill connectionRecvLength segs (line.length + 1)),
          { segments :=
              dropBytes (line.length + 1 + spill connectionRecvLength segs (line.length + 1)) segs,
            ending := ending }) := by
  -- the induction is on the part of the line not received yet
  induction hn : line.length using Nat.strong_induction_on
    generalizing line h r received segs with
  | _ len ih =>
  subst hn
  obtain ⟨m, hpos, hwant, hlen, hspill, hrecv⟩ :=
    recv_cut hcut (by simp) ending (show 0 < connectionRecvLength by decide)
  replace hspill := hspill (line.length + 1) (Nat.succ_pos _)
  have hblen : ((line ++ 10 :: rest).take m).length ≤ connectionRecvLength := by
    rw [List.length_take]
    omega
  obtain ⟨r', hr', hchunk⟩ := readChunk_eq henv hr hblen
  have hstep : serve env 1 (h, { segments := segs, ending := ending }) =
      (h.step env (.data ((line ++ 10 :: rest).take m)),
        { segments := dropBytes m segs, ending := ending }) := by
    rw [serve_one, serveStep_recvLine env hc, hrecv]
  by_cases hend : line.length + 1 ≤ m
  · -- the newline is among the bytes received
    have hbuf : (line ++ 10 :: rest).take m = line ++ 10 :: rest.take (m - (line.length + 1)) := by
      rw [List.take_append, List.take_of_length_le (by omega),
        show m - line.length = m - (line.length + 1) + 1 by omega, List.take_succ_cons]
    have hrest : m - (line.length + 1) ≤ rest.length := by
      simp only [List.length_append, List.length_cons] at hlen
      omega
    rw [hspill, if_pos hend]
    refine ⟨1, r', ?_, hrest, ?_⟩
    · rw [hbuf] at hr'
      rw [List.append_assoc]
      exact hr'
    · rw [hbuf, sstrstr_newline_some hline] at hchunk
      dsimp only at hchunk
      rw [hstep, hbuf, step_recvLine env hc, hchunk]
      simp only [List.length_append, List.length_cons, List.length_take, min_eq_left hrest]
      rw [show line.length + (m - (line.length + 1) + 1) - (line.length + 1) =
        m - (line.length + 1) by omega, show line.length + 1 + (m - (line.length + 1)) = m by omega]
  · -- more of the line is to come
    have hbuf : (line ++ 10 :: rest).take m = line.take m := by
      rw [List.take_append_of_le_length (by omega)]
    have hnot : (10 : Byte) ∉ line.take m := fun hmem => hline (List.mem_of_mem_take hmem)
    have hcut' : Cut (dropBytes m segs) (line.drop m ++ 10 :: rest) := by
      have hdrop := hcut.dropBytes m
      rwa [List.drop_append_of_le_length (by omega)] at hdrop
    have hleft : line.length + 1 - m = (line.drop m).length + 1 := by
      rw [List.length_drop]
      omega
    rw [hbuf] at hr' hchunk hstep
    rw [sstrstr_newline_none hnot] at hchunk
    dsimp only at hchunk
    rw [step_recvLine env hc, hchunk] at hstep
    obtain ⟨n, r'', hr'', hle, hserve⟩ := ih (line.drop m).length
      (by rw [List.length_drop]; omega) (line.drop m) (h := { h with control := .recvLine r' })
      rfl hr' hcut' (fun hmem => hline (List.mem_of_mem_drop hmem)) rfl
    rw [hspill, if_neg hend, hleft]
    refine ⟨n + 1, r'', ?_, hle, ?_⟩
    · rw [List.append_assoc received, List.take_append_drop] at hr''
      exact hr''
    · rw [serve_add, hstep, hserve, dispatch_control,
        dropBytes_add hcut.ne_nil, List.length_drop]
      congr 3
      omega

/-! ## The trim -/

/-- The trim zeroes the line breaks at the end of the received bytes. -/
theorem trimNewlines_append {pre post tail : List Byte} {b : Byte} (hb : isNewline b = false) :
    trimNewlines (pre ++ b :: (post ++ tail)) (pre.length + 1 + post.length) =
      some (pre ++ b :: (trimmed post ++ tail)) := by
  induction post using List.reverseRecOn generalizing tail with
  | nil =>
    rw [List.length_nil, Nat.add_zero, trimNewlines]
    simp [List.getD_eq_getElem?_getD, hb, trimmed]
  | append_singleton post x ih =>
    have hmem : pre ++ b :: (post ++ [x] ++ tail) = (pre ++ b :: post) ++ x :: tail := by simp
    have hlen : (pre ++ b :: post).length = pre.length + 1 + post.length := by
      simp only [List.length_append, List.length_cons]
      omega
    have hidx : pre.length + 1 + (post ++ [x]).length = (pre ++ b :: post).length + 1 := by
      rw [hlen, List.length_append, List.length_singleton]
      omega
    have hget : ((pre ++ b :: post) ++ x :: tail).getD (pre ++ b :: post).length 0 = x := by
      simp [List.getD_eq_getElem?_getD]
    rw [hmem, hidx, trimNewlines, hget]
    by_cases hx : isNewline x = true
    · have hset : ((pre ++ b :: post) ++ x :: tail).set (pre ++ b :: post).length 0 =
          pre ++ b :: (post ++ 0 :: tail) := by
        simp
      rw [if_pos hx, hset, hlen, ih, trimmed_concat_newline post hx, List.append_assoc]
      rfl
    · rw [Bool.not_eq_true] at hx
      rw [hx, if_neg (by simp), trimmed_concat_of_not post hx]
      simp

/-- `handle_command` sees the block with the line breaks at the end of the
    received bytes zeroed. -/
theorem dispatch_eq (env : Env) (h : Handler R) {r : ReadLoop} {pre post : List Byte} {b : Byte}
    (hr : r.Holds (pre ++ b :: post)) (hb : isNewline b = false) :
    ∃ tail, tail ≠ [] ∧ ∀ k, h.dispatch env r k =
      match handleCommandCall (pre ++ b :: (trimmed post ++ tail)) with
      | none => { h with control := .fault }
      | some (call, mem) =>
        Handler.resume { h with log := h.log ++ [.command (pre ++ b :: post) call] }
          (runCall env h.table h.clientCount mem k call) := by
  obtain ⟨⟨tail, hcommand, hfree⟩, hpos, -⟩ := hr
  refine ⟨tail, ?_, fun k => ?_⟩
  · rintro rfl
    rw [hfree, List.length_nil] at hpos
    omega
  · have hlen : ((r.command.length : ℤ) - r.commandFreeLen).toNat = (pre ++ b :: post).length := by
      rw [hcommand, hfree, List.length_append]
      omega
    have htake : r.command.take (pre ++ b :: post).length = pre ++ b :: post := by
      rw [hcommand, List.take_left]
    have htrim : trimNewlines r.command (pre ++ b :: post).length =
        some (pre ++ b :: (trimmed post ++ tail)) := by
      rw [← @trimNewlines_append pre post tail b hb, hcommand]
      simp only [List.append_assoc, List.cons_append, List.length_append, List.length_cons]
      congr 1
      omega
    rcases hcall : handleCommandCall (pre ++ b :: (trimmed post ++ tail)) with _ | ⟨call, mem⟩ <;>
      simp only [Handler.dispatch, hlen, htake, htrim, hcall]

end Handler

end Memuncached.Server
