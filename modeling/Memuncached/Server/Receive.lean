import Memuncached.Lib.Transitions
import Memuncached.Server.Framing
import Memuncached.Server.Thread

/-!
# What a thread does with a request

A thread on a stream that starts with a well-formed request, in segments that are
harmless for it. Whatever the counters read by STT, the thread comes to the end
of the request, or to its command on the table with the payload the request
carries; until then some of the request is unread.

* `leads_line`: the read loop and a line.
* `leads_payload`: the payload loop.
* `receives_request`: a whole request.
-/

namespace Memuncached.Server

open Segments Transitions

/-- The thread has replied `replies` and has not read all of the stream. -/
structure Reading (replies : List (List Byte)) (s : Thread × Socket) : Prop where
  unread : s.2.segments ≠ []
  replied : repliesOf s.1.log = replies

/-- The thread is where `P` holds, or comes there reading. -/
def Leads (env : Env) (replies : List (List Byte)) (P : Thread × Socket → Prop)
    (s : Thread × Socket) : Prop :=
  P s ∨ Until (Thread.recv env) (Reading replies) P s

/-- The stream `s` as it is cut, with this end. -/
def socketOf (segs : List (List Byte)) (ending : StreamEnd) : Socket where
  segments := segs
  ending := ending

section Receive

variable {env : Env} {replies : List (List Byte)} {P : Thread × Socket → Prop} {th : Thread}
  {segs : List (List Byte)} {ending : StreamEnd}

/-- One `recv` in the read loop. -/
theorem recv_line {r : ReadLoop} (hc : th.control = .recvLine r) (counts : Counts)
    (sock : Socket) :
    Thread.recv env (th, sock) counts =
      some (th.step env counts (sock.recv connectionRecvLength).1,
        (sock.recv connectionRecvLength).2) := by
  simp only [Thread.recv, hc]

theorem recv_payload {p : PayloadRead} (hc : th.control = .recvPayload p) (counts : Counts)
    (sock : Socket) :
    Thread.recv env (th, sock) counts =
      some (th.step env counts (p.recv sock).1, (p.recv sock).2) := by
  simp only [Thread.recv, hc]

/-- Where every result of the next `recv` leads to `P`, the thread does. -/
theorem until_recv (hunread : segs ≠ []) (hlog : repliesOf th.log = replies) {result : RecvResult}
    {segs' : List (List Byte)}
    (hrecv : ∀ counts, Thread.recv env (th, socketOf segs ending) counts =
      some (th.step env counts result, socketOf segs' ending))
    (hP : ∀ counts, Leads env replies P (th.step env counts result, socketOf segs' ending)) :
    Until (Thread.recv env) (Reading replies) P (th, socketOf segs ending) := by
  refine Until.next ⟨hunread, hlog⟩ ⟨{ clients := 0, keys := 0 }, _, hrecv _⟩ fun counts t ht => ?_
  obtain rfl := Option.some.inj ((hrecv counts).symm.trans ht)
  exact hP counts

/-! ## The read loop -/

theorem thread_dispatch_control (counts : Counts) (c : ThreadControl) (r : ReadLoop) (k : ℕ) :
    Thread.dispatch env counts { th with control := c } r k = th.dispatch env counts r k := by
  have hresume : ∀ (c : ThreadControl) (log : List Event) (stop : Stop),
      Thread.resume { th with control := c, log := log } stop =
        Thread.resume { th with log := log } stop := by
    intro c log stop
    cases stop <;> rfl
  unfold Thread.dispatch
  dsimp only
  cases trimNewlines r.command (r.command.length - r.commandFreeLen).toNat with
  | none => rfl
  | some command =>
    dsimp only
    cases handleCommandCall command with
    | none => rfl
    | some call => exact hresume c _ _

/-- The read loop on a stream that starts with a line: it comes to
    `Thread.dispatch` with the line and the `spill` bytes behind it. -/
theorem until_line (henv : env.AllocationsSucceed) (hlog : repliesOf th.log = replies)
    (line : List Byte) {r : ReadLoop}
    {received : List Byte} (hc : th.control = .recvLine r) (hr : r.Holds received)
    {rest : List Byte} (hcut : Cut segs (line ++ 10 :: rest)) (hline : (10 : Byte) ∉ line)
    (hP : ∀ counts r', r'.Holds
        (received ++ line ++ 10 :: rest.take (spill connectionRecvLength segs (line.length + 1))) →
      spill connectionRecvLength segs (line.length + 1) ≤ rest.length →
      Leads env replies P (th.dispatch env counts r' (spill connectionRecvLength segs (line.length + 1)),
        socketOf (dropBytes
          (line.length + 1 + spill connectionRecvLength segs (line.length + 1)) segs) ending)) :
    Until (Thread.recv env) (Reading replies) P (th, socketOf segs ending) := by
  -- the induction is on the part of the line not received yet
  induction hn : line.length using Nat.strong_induction_on
    generalizing line th r received segs with
  | _ len ih =>
  subst hn
  obtain ⟨m, hpos, hwant, hlen, hspill, hrecv⟩ :=
    recv_cut hcut (by simp) ending (show 0 < connectionRecvLength by decide)
  replace hspill := hspill (line.length + 1) (Nat.succ_pos _)
  have hunread : segs ≠ [] := by
    rintro rfl
    exact absurd hcut.flatten (by simp)
  have hblen : ((line ++ 10 :: rest).take m).length ≤ connectionRecvLength := by
    rw [List.length_take]
    omega
  obtain ⟨r', hr', hchunk⟩ := readChunk_eq henv hr hblen
  have hstep : ∀ counts, Thread.recv env (th, socketOf segs ending) counts =
      some (th.step env counts (.data ((line ++ 10 :: rest).take m)),
        socketOf (dropBytes m segs) ending) := by
    intro counts
    rw [recv_line hc, socketOf, hrecv]
    rfl
  refine until_recv hunread hlog hstep fun counts => ?_
  by_cases hend : line.length + 1 ≤ m
  · -- the newline is among the bytes received
    have hbuf : (line ++ 10 :: rest).take m = line ++ 10 :: rest.take (m - (line.length + 1)) := by
      rw [List.take_append, List.take_of_length_le (by omega),
        show m - line.length = m - (line.length + 1) + 1 by omega, List.take_succ_cons]
    have hrest : m - (line.length + 1) ≤ rest.length := by
      simp only [List.length_append, List.length_cons] at hlen
      omega
    rw [hspill, if_pos hend] at hP
    rw [hbuf] at hr' hchunk ⊢
    rw [sstrstr_newline_some hline] at hchunk
    dsimp only at hchunk
    have hleft : (line ++ 10 :: rest.take (m - (line.length + 1))).length - (line.length + 1) =
        m - (line.length + 1) := by
      simp only [List.length_append, List.length_cons, List.length_take, min_eq_left hrest]
      omega
    have hdispatch : th.step env counts
        (.data (line ++ 10 :: rest.take (m - (line.length + 1)))) =
        th.dispatch env counts r' (m - (line.length + 1)) := by
      simp only [Thread.step, hc, hchunk, hleft]
    rw [hdispatch]
    have happly := hP counts r' (by rwa [List.append_assoc]) hrest
    rwa [show line.length + 1 + (m - (line.length + 1)) = m by omega] at happly
  · -- more of the line is to come
    have hbuf : (line ++ 10 :: rest).take m = line.take m := by
      rw [List.take_append_of_le_length (by omega)]
    have hnot : (10 : Byte) ∉ line.take m := fun hmem => hline (List.mem_of_mem_take hmem)
    have hcut' : Cut (dropBytes m segs) (line.drop m ++ 10 :: rest) := by
      have hdrop := hcut.dropBytes m
      rwa [List.drop_append_of_le_length (by omega)] at hdrop
    have hleft : line.length + 1 - m = (line.drop m).length + 1 := by
      rw [List.length_drop]
      omega
    rw [hbuf] at hr' hchunk ⊢
    rw [sstrstr_newline_none hnot] at hchunk
    dsimp only at hchunk
    have hmore : th.step env counts (.data (line.take m)) = { th with control := .recvLine r' } := by
      simp only [Thread.step, hc, hchunk]
    rw [hmore]
    refine Or.inr (ih (line.drop m).length (by rw [List.length_drop]; omega) hlog (line.drop m) rfl
      hr' hcut' (fun hmem => hline (List.mem_of_mem_drop hmem)) (fun counts r'' hr'' hle => ?_) rfl)
    rw [hspill, if_neg hend, hleft] at hP
    rw [List.append_assoc received, List.take_append_drop] at hr''
    have happly := hP counts r'' hr'' hle
    rw [dropBytes_add hcut.ne_nil, thread_dispatch_control]
    rwa [show m + ((line.drop m).length + 1 +
      spill connectionRecvLength (dropBytes m segs) ((line.drop m).length + 1)) =
      line.length + 1 + spill connectionRecvLength (dropBytes m segs) ((line.drop m).length + 1) by
        omega]

/-! ## The payload loop -/

/-- The payload loop with `got` in the buffer and enough of the stream left: it
    comes to the table with the next bytes of the stream in the buffer. -/
theorem leads_payload (hlog : repliesOf th.log = replies) (p : PayloadRead) {got tail s : List Byte}
    (hbuf : p.payload = some (got ++ tail)) (hlen : p.vLength + 2 = (got.length : ℤ) + tail.length)
    (hv : p.vLen = tail.length) (hcut : Cut segs s) (hs : tail.length ≤ s.length)
    (hP : P (th.resume (payloadLoopStop
        { p with payload := some (got ++ s.take tail.length), vLen := 0 }),
      socketOf (dropBytes tail.length segs) ending)) :
    Leads env replies P (th.resume (payloadLoopStop p), socketOf segs ending) := by
  -- the induction is on the part of the buffer not filled yet
  induction hn : tail.length using Nat.strong_induction_on generalizing p th got tail s segs with
  | _ len ih =>
  subst hn
  by_cases hstop : tail.length = 0
  · left
    have htail := List.eq_nil_of_length_eq_zero hstop
    subst htail
    have hsame : { p with payload := some (got ++ s.take ([] : List Byte).length), vLen := 0 } = p := by
      obtain ⟨key, type, vLength, payload, chunkSize, vLen, overwrite, writes⟩ := p
      dsimp only at hbuf hv
      rw [hbuf, hv]
      simp
    rwa [hsame, List.length_nil, dropBytes_zero hcut.ne_nil] at hP
  · right
    have hsne : s ≠ [] := by
      rintro rfl
      simp only [List.length_nil] at hs
      omega
    have hunread : segs ≠ [] := by
      obtain ⟨seg, rest, rfl⟩ := hcut.exists_cons hsne
      exact List.cons_ne_nil _ _
    have hw : 0 < p.vLen.toNat := by omega
    obtain ⟨m, hm0, hm1, hm2, hrecv⟩ := @Socket.recv_data segs s ending hcut hsne _ hw
    have hmt : m ≤ tail.length := by omega
    have htlen : (s.take m).length = m := by
      rw [List.length_take, min_eq_left hm2]
    have hstore : store (got ++ tail) (p.vLength + 2 - p.vLen).toNat (s.take m) =
        (got ++ s.take m) ++ tail.drop m := by
      rw [store_append (by omega) (by omega), htlen]
    set p' : PayloadRead :=
      { p with payload := some ((got ++ s.take m) ++ tail.drop m), vLen := p.vLen - m } with hp'
    have hwaits : th.resume (payloadLoopStop p) = { th with control := .recvPayload p } := by
      rw [payloadLoopStop, if_pos (by omega)]
      rfl
    have hgoes : ∀ counts, Thread.step env counts { th with control := .recvPayload p }
        (.data (s.take m)) = th.resume (payloadLoopStop p') := by
      intro counts
      have hstop : payloadRecvStop p (.data (s.take m)) = payloadLoopStop p' := by
        rw [payloadRecvStop, hbuf, Option.map_some, hstore, htlen]
      show Thread.resume { th with control := .recvPayload p } _ = _
      rw [hstop]
      cases payloadLoopStop p' <;> rfl
    rw [hwaits]
    have hstep : ∀ counts, Thread.recv env ({ th with control := .recvPayload p },
        socketOf segs ending) counts =
        some (Thread.step env counts { th with control := .recvPayload p } (.data (s.take m)),
          socketOf (dropBytes m segs) ending) := by
      intro counts
      rw [recv_payload rfl, PayloadRead.recv, hbuf, if_neg (by simp), socketOf, hrecv]
      rfl
    refine until_recv hunread hlog hstep fun counts => ?_
    rw [hgoes]
    have hlen' : p'.vLength + 2 = ((got ++ s.take m).length : ℤ) + (tail.drop m).length := by
      show p.vLength + 2 = _
      rw [List.length_append, List.length_drop, htlen]
      omega
    have hv' : p'.vLen = (tail.drop m).length := by
      show p.vLen - m = _
      rw [List.length_drop]
      omega
    refine ih (tail.drop m).length (by rw [List.length_drop]; omega) hlog p' rfl hlen' hv'
      (hcut.dropBytes m) (by rw [List.length_drop, List.length_drop]; omega) ?_ rfl
    have htake : s.take m ++ (s.drop m).take (tail.length - m) = s.take tail.length := by
      rw [← List.take_add, show m + (tail.length - m) = tail.length by omega]
    rw [List.length_drop, dropBytes_add hcut.ne_nil, List.append_assoc got, htake,
      show m + (tail.length - m) = tail.length by omega]
    exact hP

/-! ## The dispatch -/

/-- `handle_command` sees the block with the line breaks at the end of the
    received bytes zeroed. -/
theorem thread_dispatch_eq (env : Env) {r : ReadLoop} {pre post : List Byte} {b : Byte}
    (hr : r.Holds (pre ++ b :: post)) (hb : isNewline b = false) :
    ∃ tail, ∀ counts th k, Thread.dispatch env counts th r k =
      match handleCommandCall (pre ++ b :: (trimmed post ++ tail)) with
      | none => { th with control := .fault }
      | some (call, mem) =>
        Thread.resume { th with log := th.log ++ [.command (pre ++ b :: post) call] }
          (runCallStop env counts mem k call) := by
  obtain ⟨⟨tail, hcommand, hfree⟩, -, -⟩ := hr
  refine ⟨tail, fun counts th k => ?_⟩
  have hlen : ((r.command.length : ℤ) - r.commandFreeLen).toNat = (pre ++ b :: post).length := by
    rw [hcommand, hfree, List.length_append]
    omega
  have htake : r.command.take (pre ++ b :: post).length = pre ++ b :: post := by
    rw [hcommand, List.take_left]
  have htrim : trimNewlines r.command (pre ++ b :: post).length =
      some (pre ++ b :: (trimmed post ++ tail)) := by
    rw [← @trimNewlines_append pre post tail b hb, hcommand]
    simp only [List.append_assoc, List.cons_append, List.length_append, List.length_cons]
    congr 1
    omega
  rcases hcall : handleCommandCall (pre ++ b :: (trimmed post ++ tail)) with _ | ⟨call, mem⟩ <;>
    simp only [Thread.dispatch, hlen, htake, htrim, hcall]

/-- A line of words that arrives with nothing behind it is carried out. -/
theorem thread_dispatch_line (env : Env) (l : LineRequest) {rl : ReadLoop}
    (hr : rl.Holds (headerLine l.words)) :
    ∃ mem, ∀ counts th, Thread.dispatch env counts th rl 0 =
      Thread.resume { th with log := th.log ++ [.command (headerLine l.words) (lineCall l.words)] }
        (runCallStop env counts mem 0 (lineCall l.words)) := by
  obtain ⟨pre, b, hjoin, hb⟩ := joinWords_concat l.ne_nil l.word_words
  have hheader : headerLine l.words = pre ++ b :: crlf := by
    simp [headerLine, hjoin]
  rw [hheader] at hr ⊢
  obtain ⟨tail, hdispatch⟩ := thread_dispatch_eq env hr hb
  have hblock : pre ++ b :: (trimmed crlf ++ tail) = joinWords l.words ++ 0 :: (0 :: tail) := by
    have hcrlf : trimmed crlf = [0, 0] := by decide
    rw [hjoin, hcrlf]
    simp
  obtain ⟨mem, hmem⟩ := handleCommandCall_line l.word_words l.not_add l.not_set (0 :: tail)
  refine ⟨mem, fun counts th => ?_⟩
  rw [hdispatch, hblock, hmem]

/-- The header of an ADD or SET with an intact part of its body behind it leads to
    `memuncached_set` with this part. -/
theorem thread_dispatch_store (env : Env) (r : StoreRequest) {rl : ReadLoop} {chunk : List Byte}
    (hr : rl.Holds (r.header ++ chunk)) (hclean : CleanHead chunk) :
    ∃ itr, ∀ counts th, Thread.dispatch env counts th rl chunk.length =
      Thread.resume
        { th with log := th.log ++ [.command (r.header ++ chunk)
            (.set r.key r.type r.length itr r.overwrite)] }
        (memuncachedSetStop env r.key r.type r.length (trimmed chunk) r.overwrite) := by
  obtain ⟨pre, b, hjoin, hb⟩ := joinWords_concat (by simp [StoreRequest.words]) r.word_words
  have hheader : r.header ++ chunk = pre ++ b :: (crlf ++ chunk) := by
    simp [StoreRequest.header, headerLine, hjoin]
  rw [hheader] at hr ⊢
  obtain ⟨tail, hdispatch⟩ := thread_dispatch_eq env hr hb
  have hblock : pre ++ b :: (trimmed (crlf ++ chunk) ++ tail) =
      joinWords r.words ++ (trimmed (crlf ++ chunk) ++ tail) := by
    rw [hjoin]
    simp
  obtain ⟨mem, itr, hcall, hread⟩ := r.handleCommandCall_clean env hclean tail
  refine ⟨itr, fun counts th => ?_⟩
  rw [hdispatch, hblock, hcall]
  dsimp only
  rw [runCallStop, hread]

/-- `memuncached_set` on a request with a sound length. -/
theorem memuncachedSetStop_store (henv : env.AllocationsSucceed) (r : StoreRequest)
    (hn : (r.payload.length : ℤ) + 2 ≤ intMax) {found : List Byte}
    (hk : found.length ≤ r.payload.length + 2) :
    memuncachedSetStop env r.key r.type r.length found r.overwrite =
      payloadLoopStop (r.loop
        (found ++ List.replicate (r.payload.length + 2 - found.length) 0) found.length
        ((r.payload.length : ℤ) + 2 - found.length)) := by
  have hsize : atoi r.length + 2 = ((r.payload.length + 2 : ℕ) : ℤ) := by
    rw [r.atoi_length_of_le hn]
    omega
  have hcalloc : calloc env ((r.payload.length + 2 : ℕ) : ℤ) =
      some (List.replicate (r.payload.length + 2) 0) := by
    rw [calloc, Int.toNat_natCast, if_pos ⟨Int.natCast_nonneg _, henv _⟩]
  have hcopy : copyChunk (some (List.replicate (r.payload.length + 2) 0)) found =
      some (some (found ++ List.replicate (r.payload.length + 2 - found.length) 0)) := by
    unfold copyChunk
    by_cases h0 : found.length = 0
    · obtain rfl := List.eq_nil_of_length_eq_zero h0
      rfl
    · have hstore := @store_append [] (List.replicate (r.payload.length + 2) 0) found 0 rfl
        (by rw [List.length_replicate]; omega)
      rw [List.nil_append, List.nil_append, List.drop_replicate] at hstore
      rw [if_neg h0]
      dsimp only
      rw [if_pos (by rw [List.length_replicate]; omega), hstore]
  unfold memuncachedSetStop
  dsimp only
  rw [hsize, if_neg (by omega), hcalloc]
  simp only [Option.isNone_some, Bool.false_eq_true, if_false]
  rw [hcopy, StoreRequest.loop, ← r.atoi_length_of_le hn]
  dsimp only
  rw [hsize, r.atoi_length_of_le hn]

/-- The read loop on a line of words. -/
theorem until_headerLine (henv : env.AllocationsSucceed) (hlog : repliesOf th.log = replies)
    (hc : th.control = .recvLine ReadLoop.init) {ws : List (List Byte)}
    (hws : (10 : Byte) ∉ joinWords ws) {rest : List Byte} (hcut : Cut segs (headerLine ws ++ rest))
    (hP : ∀ counts rl, rl.Holds (headerLine ws ++
        rest.take (spill connectionRecvLength segs (headerLine ws).length)) →
      spill connectionRecvLength segs (headerLine ws).length ≤ rest.length →
      Leads env replies P
        (th.dispatch env counts rl (spill connectionRecvLength segs (headerLine ws).length),
          socketOf (dropBytes ((headerLine ws).length +
            spill connectionRecvLength segs (headerLine ws).length) segs) ending)) :
    Until (Thread.recv env) (Reading replies) P (th, socketOf segs ending) := by
  have hline : headerLine ws ++ rest = (joinWords ws ++ [13]) ++ 10 :: rest := by
    simp [headerLine, crlf]
  have hlen : (joinWords ws ++ [13]).length + 1 = (headerLine ws).length := by
    simp [headerLine, crlf]
  have hnl : (10 : Byte) ∉ joinWords ws ++ [13] := by
    rw [List.mem_append, List.mem_singleton]
    rintro (hmem | hmem)
    · exact hws hmem
    · exact absurd hmem (by decide)
  rw [hline] at hcut
  refine until_line henv hlog (joinWords ws ++ [13]) hc holds_init hcut hnl fun counts rl hrl hle => ?_
  rw [hlen] at hrl hle ⊢
  refine hP counts rl ?_ hle
  have hrec : [] ++ (joinWords ws ++ [13]) ++
      10 :: rest.take (spill connectionRecvLength segs (headerLine ws).length) =
      headerLine ws ++ rest.take (spill connectionRecvLength segs (headerLine ws).length) := by
    simp [headerLine, crlf]
  rwa [hrec] at hrl

end Receive

/-! ## One request -/

/-- The command on the table that a call is. -/
def Call.tableCommand : Call → Option TableCommand
  | .dec key offset initial => some (.dec key offset initial)
  | .inc key offset initial => some (.inc key offset initial)
  | .del key => some (.del key)
  | .get key => some (.get key)
  | _ => none

/-- The command on the table that a request is. -/
def Request.tableCommand : Request → Option TableCommand
  | .line l => (lineCall l.words).tableCommand
  | .store r => some (.set r.key r.type r.payload.length (some r.body) r.overwrite)

/-- The replies to a call that does not work on the table. -/
def Call.plainReplies (counts : Counts) : Call → List (List Byte)
  | .badRequest message => [replyBadRequest message]
  | .bye => [replySuccess (ascii "bye.")]
  | .stt => [replySuccess (sttCounts counts)]
  | .ver => [replySuccess (ascii "1.0")]
  | _ => []

/-- The replies to a request that does not work on the table. -/
def Request.plainReplies (counts : Counts) : Request → List (List Byte)
  | .line l => (lineCall l.words).plainReplies counts
  | .store _ => []

/-- The command does to the table what the request says. -/
def CarriesOut (R : Type) [CacheValueReal R] (cmd : TableCommand) (r : Request) : Prop :=
  ∃ c, r.tableCommand = some c ∧ cmd.key = c.key ∧ (cmd.prog : TableProg R _) = c.prog

/-- The thread has come to the end of the request, or to its command on the table,
    with `sock` left of the stream. -/
inductive Received (R : Type) [CacheValueReal R] (log : List Event) (r : Request) (sock : Socket) :
    Thread × Socket → Prop
  | plain {events : List Event} {counts : Counts} {th : Thread} (hplain : r.tableCommand = none)
      (hreplies : repliesOf events = r.plainReplies counts) (hlog : th.log = log ++ events)
      (hcloses : r.Closes → th.control = .cleanup)
      (hopen : ¬ r.Closes → th.control = .recvLine ReadLoop.init ∧ th.isThreadRunning = true) :
      Received R log r sock (th, sock)
  | table {events later : List Event} {cmd : TableCommand} {th : Thread}
      (hcmd : CarriesOut R cmd r) (hevents : repliesOf events = [])
      (hlater : repliesOf later = []) (hlog : th.log = log ++ events)
      (hcontrol : th.control = .table later [] cmd) (hrunning : th.isThreadRunning = true) :
      Received R log r sock (th, sock)

section Request

variable {R : Type} [CacheValueReal R] {env : Env} {th : Thread} {segs : List (List Byte)}
  {ending : StreamEnd}

/-- What a call without payload comes to. -/
theorem received_line (env : Env) (counts : Counts) (mem : List Byte)
    (hrun : th.isThreadRunning = true) (l : LineRequest) (sock : Socket) :
    Received R th.log (.line l) sock
      (Thread.resume
        { th with log := th.log ++ [.command (headerLine l.words) (lineCall l.words)] }
        (runCallStop env counts mem 0 (lineCall l.words)), sock) := by
  have hplain : ∀ call running, lineCall l.words = call → call.tableCommand = none →
      (running = false ↔ call = .bye) →
      Received R th.log (.line l) sock
        (Thread.resume { th with log := th.log ++ [.command (headerLine l.words) call] }
          (.done ((call.plainReplies counts).map .reply) running), sock) := by
    intro call running hcall hnone hbye
    have hcloses : (Request.line l).Closes ↔ running = false := by
      rw [hbye, ← hcall]
      rfl
    have hreplies : repliesOf (.command (headerLine l.words) call ::
        (call.plainReplies counts).map .reply) = (Request.line l).plainReplies counts := by
      rw [Request.plainReplies, hcall]
      exact repliesOf_map_reply _
    refine .plain ?_ hreplies (List.append_assoc _ _ _) (fun h => ?_) fun h => ?_
    · rw [Request.tableCommand, hcall, hnone]
    · rw [hcloses.mp h]
      simp [Thread.resume, Thread.loopTop]
    · have hgoes : running = true := by
        rw [← Bool.not_eq_false]
        exact fun hrunning => h (hcloses.mpr hrunning)
      rw [hgoes]
      simp [Thread.resume, Thread.loopTop, hrun]
  have htable : ∀ call cmd, lineCall l.words = call → call.tableCommand = some cmd →
      Received R th.log (.line l) sock
        (Thread.resume { th with log := th.log ++ [.command (headerLine l.words) call] }
          (.table [] [] cmd), sock) := by
    intro call cmd hcall hsome
    refine .table ⟨cmd, ?_, rfl, rfl⟩ (by simp [repliesOf]) rfl rfl rfl hrun
    rw [Request.tableCommand, hcall, hsome]
  cases hcall : lineCall l.words with
  | nothing => exact hplain _ true hcall rfl (by simp)
  | badRequest message => exact hplain _ true hcall rfl (by simp)
  | bye => exact hplain _ false hcall rfl (by simp)
  | stt => exact hplain _ true hcall rfl (by simp)
  | ver => exact hplain _ true hcall rfl (by simp)
  | dec key offset initial => exact htable _ _ hcall rfl
  | inc key offset initial => exact htable _ _ hcall rfl
  | del key => exact htable _ _ hcall rfl
  | get key => exact htable _ _ hcall rfl
  | set key type length itr overwrite => exact absurd hcall (lineCall_ne_set _ _ _ _ _ _)

/-- A full payload buffer carries out the request. -/
theorem carriesOut_loop (r : StoreRequest) {buffer : List Byte}
    (hlen : buffer.length = r.payload.length + 2)
    (htake : buffer.take r.payload.length = r.payload) (k : ℕ) (vLen : ℤ) :
    CarriesOut R (r.loop buffer k vLen).command (.store r) := by
  refine ⟨_, rfl, rfl, ?_⟩
  have hput : putTerminators (some buffer) r.payload.length =
      putTerminators (some r.body) r.payload.length := by
    rw [putTerminators_eq hlen htake, putTerminators_eq r.length_body (by simp [StoreRequest.body])]
  exact setTable_congr r.key r.type hput r.overwrite

/-- A thread at the start of a request whose cut is harmless comes to its end, or to
    its command on the table. -/
theorem receives_request (R : Type) [CacheValueReal R] (henv : env.AllocationsSucceed)
    (hc : th.control = .recvLine ReadLoop.init) (hrun : th.isThreadRunning = true) (r : Request)
    {later : List Byte} (hcut : Cut segs (r.encode ++ later))
    (hclean : r.CleanAt (spill connectionRecvLength segs r.header.length)) :
    Until (Thread.recv env) (Reading (repliesOf th.log))
      (Received R th.log r (socketOf (dropBytes r.encode.length segs) ending))
      (th, socketOf segs ending) := by
  have hcut' : Cut segs (r.header ++ (r.body ++ later)) := by
    rwa [Request.encode, List.append_assoc] at hcut
  have hlen : r.encode.length = r.header.length + r.body.length := List.length_append
  rw [hlen]
  cases r with
  | line l =>
    refine until_headerLine henv rfl hc (newline_notMem_joinWords l.word_words) hcut'
      fun counts rl hrl _ => Or.inl ?_
    have hk : spill connectionRecvLength segs (headerLine l.words).length = 0 := hclean
    rw [hk, List.take_zero, List.append_nil] at hrl
    obtain ⟨mem, hdispatch⟩ := thread_dispatch_line env l hrl
    rw [hk, hdispatch]
    exact received_line env counts mem hrun l _
  | store r =>
    refine until_headerLine henv rfl hc (newline_notMem_joinWords r.word_words) hcut'
      fun counts rl hrl hle => ?_
    rw [← StoreRequest.header] at hrl hle ⊢
    have hclean : r.CleanAt (spill connectionRecvLength segs r.header.length) := hclean
    set k := spill connectionRecvLength segs r.header.length with hk
    have hkn := hclean.spill_le
    have hchunk : (r.body ++ later).take k = r.body.take k :=
      List.take_append_of_le_length (by rw [r.length_body]; omega)
    have hclen : (r.body.take k).length = k := by
      rw [List.length_take, r.length_body]
      omega
    obtain ⟨hhead, htake⟩ := trimmed_of_intact r hclean.intact
    have hrl' : rl.Holds (r.header ++ r.body.take k) := by
      rw [← hchunk]
      exact hrl
    obtain ⟨itr, hdispatch⟩ := thread_dispatch_store env r hrl' hhead
    have hset := memuncachedSetStop_store henv r hclean.length_le
      (by rw [length_trimmed, hclen]; exact hkn : (trimmed (r.body.take k)).length ≤ _)
    rw [hclen] at hdispatch
    rw [length_trimmed, hclen] at hset
    rw [hdispatch, hset]
    -- the rest of the body comes through the payload loop
    have hcut'' : Cut (dropBytes (r.header.length + k) segs) (r.body.drop k ++ later) := by
      have hdrop := hcut'.dropBytes (r.header.length + k)
      have hbody : (Request.store r).body = r.body := rfl
      have hheader : (Request.store r).header = r.header := rfl
      rwa [hbody, hheader, ← List.drop_drop, List.drop_left,
        List.drop_append_of_le_length (by rw [r.length_body]; omega)] at hdrop
    have hfill : (List.replicate (r.payload.length + 2 - k) (0 : Byte)).length =
        (r.body.drop k).length := by
      rw [List.length_replicate, List.length_drop, r.length_body]
    refine leads_payload (by simp [repliesOf]) _ rfl ?_ ?_ hcut'' ?_ ?_
    · show (r.payload.length : ℤ) + 2 = _
      rw [length_trimmed, hclen, List.length_replicate]
      omega
    · show (r.payload.length : ℤ) + 2 - k = _
      rw [List.length_replicate]
      omega
    · rw [hfill, List.length_append]
      omega
    · have hsum : r.header.length + k + (r.body.drop k).length =
          r.header.length + r.body.length := by
        rw [List.length_drop, r.length_body]
        omega
      rw [hfill, List.take_left, dropBytes_add hcut.ne_nil, hsum]
      exact .table
        (carriesOut_loop r (by rw [List.length_append, length_trimmed, ← List.length_append,
          List.take_append_drop, r.length_body]) htake k 0)
        (by simp [repliesOf]) (repliesOf_events _) rfl rfl hrun

end Request

end Memuncached.Server
