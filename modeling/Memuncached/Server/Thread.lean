import Memuncached.Server.Linearizable
import Memuncached.Server.Run

/-!
# The thread of a connection

`Handler.step` carries a command out to its end, which is right as long as the
connection is alone. The threads of several connections share the table without
a lock. `Thread.step` is the handler without the table: it runs from the return
of one `recv` to the next, or to the first call of a command on the table, and
waits there for the command's replies.

* `step_handler`: with its commands executed alone a thread is the handler of
  `Server.Connection`.
-/

namespace Memuncached.Server

/-! ## Commands up to the table -/

/-- `clients->count` and `table->count`, as `memuncached_stt` reads them. -/
structure Counts where
  clients : ℕ
  keys : ℕ
  deriving DecidableEq, Repr

/-- Where a command has finished, waits for payload bytes, is about to work on the
    table, or has no defined behaviour. -/
inductive Stop where
  | done (events : List Event) (running : Bool)
  | recv (p : PayloadRead)
  | table (events : List Event) (writes : List (List Byte)) (cmd : TableCommand)
  | fault

/-- What `memuncached_set` does to the table behind its payload loop. -/
def PayloadRead.command (p : PayloadRead) : TableCommand :=
  .set p.key p.type p.vLength p.payload p.overwrite

/-- The test of `while (v_len > 0)` (connection.c, line 437). -/
def payloadLoopStop (p : PayloadRead) : Stop :=
  if 0 < p.vLen then .recv p else .table p.events p.writes p.command

/-- The body of the payload loop (connection.c, lines 439-446). -/
def payloadRecvStop (p : PayloadRead) : RecvResult → Stop
  | .data bytes =>
    payloadLoopStop
      { p with
        payload := p.payload.map fun buffer => store buffer (p.vLength + 2 - p.vLen).toNat bytes
        vLen := p.vLen - bytes.length }
  | .eof => payloadLoopStop p
  | .error => .done ((p.writes ++ [replyServerError (ascii "Read failed.")]).map .reply) true
  | .block => .recv p

/-- `memuncached_set` up to its payload loop (connection.c, lines 422-437). -/
def memuncachedSetStop (env : Env) (key type length chunk : List Byte) (overwrite : Bool) : Stop :=
  let vLength := atoi length
  -- `v_length + 2` overflows `int`
  if vLength + 2 > intMax then .fault
  else
    let payload := calloc env (vLength + 2)
    let writes :=
      if payload.isNone then [replyServerError (ascii "Calloc failed.")] else []
    match copyChunk payload chunk with
    | none => .fault
    | some payload =>
      payloadLoopStop
        { key := key, type := type, vLength := vLength, payload := payload,
          chunkSize := chunk.length, vLen := vLength + 2 - chunk.length,
          overwrite := overwrite, writes := writes }

/-- The body of `memuncached_stt` (connection.c, lines 331-334). -/
def sttCounts (counts : Counts) : List Byte :=
  ascii "Client-Count: " ++ fmtD (toInt counts.clients) ++ 10 :: ascii "Key-Count: " ++
    fmtD (toInt counts.keys)

/-- The call of `handle_command`. -/
def runCallStop (env : Env) (counts : Counts) (mem : List Byte) (payloadChunkSize : ℕ) :
    Call → Stop
  | .nothing => .done [] true
  | .badRequest message => .done [.reply (replyBadRequest message)] true
  | .bye => .done [.reply (replySuccess (ascii "bye."))] false
  | .stt => .done [.reply (replySuccess (sttCounts counts))] true
  | .ver => .done [.reply (replySuccess (ascii "1.0"))] true
  | .dec key offset initial => .table [] [] (.dec key offset initial)
  | .inc key offset initial => .table [] [] (.inc key offset initial)
  | .del key => .table [] [] (.del key)
  | .get key => .table [] [] (.get key)
  | .set key type length payloadChunk overwrite =>
    memuncachedSetStop env key type length (readMem env mem payloadChunk payloadChunkSize)
      overwrite

/-! ## Threads -/

/-- Where a thread is: as a handler, or at a command on the table that was
    reached with `events` and `writes`. -/
inductive ThreadControl where
  | recvLine (r : ReadLoop)
  | recvPayload (p : PayloadRead)
  | table (events : List Event) (writes : List (List Byte)) (cmd : TableCommand)
  | cleanup
  | fault

/-- What belongs to the thread of a connection alone. -/
structure Thread where
  control : ThreadControl
  isThreadRunning : Bool
  log : List Event

namespace Thread

/-- The thread at its first `recv`. -/
def start : Thread where
  control := .recvLine ReadLoop.init
  isThreadRunning := true
  log := [.reply clientWelcomeMessage]

/-- The test of the outer loop and the set-up of its body. -/
def loopTop (th : Thread) : Thread :=
  { th with control := if th.isThreadRunning then .recvLine ReadLoop.init else .cleanup }

/-- Go on from where a command has stopped. -/
def resume (th : Thread) : Stop → Thread
  | .done events running =>
    loopTop { th with isThreadRunning := th.isThreadRunning && running, log := th.log ++ events }
  | .recv p => { th with control := .recvPayload p }
  | .table events writes cmd => { th with control := .table events writes cmd }
  | .fault => { th with control := .fault }

/-- The command on the table has ended with these replies, or has no defined
    behaviour. -/
def answered (th : Thread) (replies : Option (List (List Byte))) : Thread :=
  match th.control with
  | .table events writes _ =>
    match replies with
    | none => { th with control := .fault }
    | some replies =>
      loopTop { th with log := th.log ++ (events ++ (writes ++ replies).map .reply) }
  | _ => th

/-- The outer loop behind the read loop, with a line received. -/
def dispatch (env : Env) (counts : Counts) (th : Thread) (r : ReadLoop) (payloadChunkSize : ℕ) :
    Thread :=
  let commandLen := (r.command.length - r.commandFreeLen).toNat
  match trimNewlines r.command commandLen with
  | none => { th with control := .fault }
  | some command =>
    match handleCommandCall command with
    | none => { th with control := .fault }
    | some (call, mem) =>
      resume { th with log := th.log ++ [.command (r.command.take commandLen) call] }
        (runCallStop env counts mem payloadChunkSize call)

/-- From the return of one `recv` to the call of the next, or to a command on the
    table. -/
def step (env : Env) (counts : Counts) (th : Thread) (result : RecvResult) : Thread :=
  match th.control with
  | .recvLine r =>
    match result with
    | .data buffer =>
      match readChunk env r buffer with
      | .more r => { th with control := .recvLine r }
      | .line r payloadChunkSize => th.dispatch env counts r payloadChunkSize
      | .reallocFailed =>
        loopTop { th with log := th.log ++ [.reply (replyServerError (ascii "Realloc failed."))] }
    | .eof | .error => th.loopTop
    | .block => th
  | .recvPayload p => th.resume (payloadRecvStop p result)
  | .table _ _ _ | .cleanup | .fault => th

/-- The next call of `recv` and what follows it, for a thread that is at one. -/
def recv (env : Env) (s : Thread × Socket) (counts : Counts) : Option (Thread × Socket) :=
  match s.1.control with
  | .recvLine _ =>
    let (result, socket) := s.2.recv connectionRecvLength
    some (s.1.step env counts result, socket)
  | .recvPayload p =>
    let (result, socket) := p.recv s.2
    some (s.1.step env counts result, socket)
  | .table _ _ _ | .cleanup | .fault => none

end Thread

/-! ## The handler -/

section Handler

variable {R : Type} [CacheValueReal R]

/-- The command carried out alone, with what comes before and behind it. -/
def Stop.finish (table : HashTable R) : Stop → CommandState R
  | .done events running => .done events table running
  | .recv p => .recv p
  | .table events writes cmd =>
    match (TableProg.exec cmd.prog table).1 with
    | none => .fault
    | some replies =>
      .done (events ++ (writes ++ replies).map .reply) (TableProg.exec cmd.prog table).2 true
  | .fault => .fault

theorem payloadLoop_finish (table : HashTable R) (p : PayloadRead) :
    payloadLoop table p = (payloadLoopStop p).finish table := by
  unfold payloadLoop payloadLoopStop
  by_cases h : 0 < p.vLen
  · rw [if_pos h, if_pos h]
    rfl
  · rw [if_neg h, if_neg h, memuncachedSetEnd_eq]
    rfl

theorem payloadRecv_finish (table : HashTable R) (p : PayloadRead) (result : RecvResult) :
    payloadRecv table p result = (payloadRecvStop p result).finish table := by
  cases result with
  | data bytes => exact payloadLoop_finish table _
  | eof => exact payloadLoop_finish table p
  | error => rfl
  | block => rfl

theorem memuncachedSet_finish (env : Env) (table : HashTable R)
    (key type length chunk : List Byte) (overwrite : Bool) :
    memuncachedSet env table key type length chunk overwrite =
      (memuncachedSetStop env key type length chunk overwrite).finish table := by
  unfold memuncachedSet memuncachedSetStop
  dsimp only
  by_cases h : atoi length + 2 > intMax
  · rw [if_pos h, if_pos h]
    rfl
  · rw [if_neg h, if_neg h]
    cases copyChunk (calloc env (atoi length + 2)) chunk with
    | none => rfl
    | some payload => exact payloadLoop_finish table _

theorem ofTable_finish (cmd : TableCommand) (table : HashTable R) :
    CommandState.ofTable cmd.prog table = (Stop.table [] [] cmd).finish table := by
  rw [ofTable_eq, Stop.finish]
  rfl

theorem runCall_finish (env : Env) (table : HashTable R) (clientCount : ℕ) (mem : List Byte)
    (k : ℕ) (call : Call) :
    runCall env table clientCount mem k call =
      (runCallStop env { clients := clientCount, keys := table.count } mem k call).finish table := by
  cases call with
  | nothing => rfl
  | badRequest message => rfl
  | bye => rfl
  | stt => rfl
  | ver => rfl
  | dec key offset initial => exact ofTable_finish (.dec key offset initial) table
  | inc key offset initial => exact ofTable_finish (.inc key offset initial) table
  | del key => exact ofTable_finish (.del key) table
  | get key => exact ofTable_finish (.get key) table
  | set key type length payloadChunk overwrite => exact memuncachedSet_finish env table _ _ _ _ _

/-- The handler of a thread that is alone on the table: a command it has come to
    is carried out. -/
def Thread.handler (th : Thread) (table : HashTable R) (clientCount : ℕ) : Handler R :=
  let h : Handler R :=
    { control := .fault, table := table, clientCount := clientCount,
      isThreadRunning := th.isThreadRunning, log := th.log }
  match th.control with
  | .recvLine r => { h with control := .recvLine r }
  | .recvPayload p => { h with control := .recvPayload p }
  | .table events writes cmd => h.resume ((Stop.table events writes cmd).finish table)
  | .cleanup => { h with control := .cleanup }
  | .fault => h

variable (table : HashTable R) (clientCount : ℕ)

/-- The handler and the thread have done the same, alone on the table. -/
structure Alike (h : Handler R) (th : Thread) : Prop where
  table : h.table = table
  clientCount : h.clientCount = clientCount
  running : h.isThreadRunning = th.isThreadRunning
  log : h.log = th.log

variable {table clientCount} {h : Handler R} {th : Thread}

theorem Alike.loopTop (hth : Alike table clientCount h th) :
    th.loopTop.handler table clientCount = h.loopTop := by
  obtain ⟨control, table, clientCount, running, log⟩ := h
  obtain ⟨rfl, rfl, rfl, rfl⟩ := hth
  cases hrun : th.isThreadRunning <;>
    simp [Thread.loopTop, Thread.handler, Handler.loopTop, hrun]

theorem Alike.resume (hth : Alike table clientCount h th) (stop : Stop) :
    (th.resume stop).handler table clientCount = h.resume (stop.finish table) := by
  cases stop with
  | done events running =>
    have hdone : Alike table clientCount
        { h with table := table, isThreadRunning := h.isThreadRunning && running,
                 log := h.log ++ events }
        { th with isThreadRunning := th.isThreadRunning && running, log := th.log ++ events } :=
      ⟨rfl, hth.clientCount, by rw [hth.running], by rw [hth.log]⟩
    exact hdone.loopTop
  | recv p =>
    obtain ⟨control, table, clientCount, running, log⟩ := h
    obtain ⟨rfl, rfl, rfl, rfl⟩ := hth
    rfl
  | table events writes cmd =>
    obtain ⟨control, table, clientCount, running, log⟩ := h
    obtain ⟨rfl, rfl, rfl, rfl⟩ := hth
    exact (resume_control _ control _).symm
  | fault =>
    obtain ⟨control, table, clientCount, running, log⟩ := h
    obtain ⟨rfl, rfl, rfl, rfl⟩ := hth
    rfl

theorem Alike.dispatch (hth : Alike table clientCount h th) (env : Env) (r : ReadLoop) (k : ℕ) :
    (th.dispatch env { clients := clientCount, keys := table.count } r k).handler table
      clientCount = h.dispatch env r k := by
  obtain ⟨control, table, clientCount, running, log⟩ := h
  obtain ⟨rfl, rfl, rfl, rfl⟩ := hth
  unfold Thread.dispatch Handler.dispatch
  dsimp only
  cases trimNewlines r.command (r.command.length - r.commandFreeLen).toNat with
  | none => rfl
  | some command =>
    dsimp only
    cases handleCommandCall command with
    | none => rfl
    | some call =>
      dsimp only
      rw [runCall_finish]
      exact Alike.resume (by constructor <;> rfl) _

variable (table clientCount)

/-- With its commands executed alone a thread steps as the handler does. -/
theorem step_handler (env : Env)
    (hc : (∃ r, th.control = .recvLine r) ∨ ∃ p, th.control = .recvPayload p)
    (result : RecvResult) :
    (th.step env { clients := clientCount, keys := table.count } result).handler table
      clientCount = (th.handler table clientCount).step env result := by
  obtain ⟨control, running, log⟩ := th
  dsimp only at hc
  rcases hc with ⟨r, rfl⟩ | ⟨p, rfl⟩
  · have hth : Alike table clientCount
        (Thread.handler { control := .recvLine r, isThreadRunning := running, log := log } table
          clientCount)
        { control := .recvLine r, isThreadRunning := running, log := log } := by
      constructor <;> rfl
    cases result with
    | data buffer =>
      rw [step_recvLine env rfl, Thread.step]
      dsimp only
      cases readChunk env r buffer with
      | more r' => rfl
      | line r' k => exact hth.dispatch env r' k
      | reallocFailed => exact Alike.loopTop (by constructor <;> rfl)
    | eof => exact hth.loopTop
    | error => exact hth.loopTop
    | block => rfl
  · rw [step_recvPayload env rfl, payloadRecv_finish]
    exact Alike.resume (by constructor <;> rfl) _

/-- The next `recv` of a thread is the one of the handler. -/
theorem recv_handler {env : Env} {sock : Socket} {s : Thread × Socket}
    (hs : Thread.recv env (th, sock) { clients := clientCount, keys := table.count } = some s) :
    serveStep env (th.handler table clientCount, sock) = (s.1.handler table clientCount, s.2) := by
  obtain ⟨control, running, log⟩ := th
  cases control with
  | recvLine r =>
    obtain rfl := Option.some.inj hs
    rw [step_handler table clientCount env (Or.inl ⟨r, rfl⟩)]
    rfl
  | recvPayload p =>
    obtain rfl := Option.some.inj hs
    rw [step_handler table clientCount env (Or.inr ⟨p, rfl⟩)]
    rfl
  | table events writes cmd => cases hs
  | cleanup => cases hs
  | fault => cases hs

/-- A thread whose command has been executed alone. -/
theorem answered_handler {events : List Event} {writes : List (List Byte)} {cmd : TableCommand}
    (hc : th.control = .table events writes cmd) {replies : List (List Byte)}
    (hreplies : (TableProg.exec cmd.prog table).1 = some replies) :
    (th.answered (some replies)).handler (TableProg.exec cmd.prog table).2 clientCount =
      th.handler table clientCount := by
  obtain ⟨control, running, log⟩ := th
  dsimp only at hc
  subst hc
  have hfinish : (Stop.table events writes cmd).finish table =
      .done (events ++ (writes ++ replies).map .reply) (TableProg.exec cmd.prog table).2 true := by
    rw [Stop.finish, hreplies]
  show Thread.handler (Thread.loopTop _) _ _ = Handler.resume _ _
  rw [hfinish, Handler.resume, Bool.and_true]
  exact Alike.loopTop (by constructor <;> rfl)

end Handler

end Memuncached.Server
