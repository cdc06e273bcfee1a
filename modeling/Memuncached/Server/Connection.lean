import Memuncached.C.Search
import Memuncached.C.Socket
import Memuncached.Server.HandleCommand

/-!
# `handle_connection`

The handler thread of a connection as a state machine whose transitions are the
returns of `recv`: `Handler.step` runs from one call of `recv` to the next. The
thread waits for data in two places, the read loop of `handle_connection`
(`Control.recvLine`) and the payload loop of `memuncached_set`
(`Control.recvPayload`); it has left its outer loop in `Control.cleanup`.

`is_running` is true throughout: a run here ends with its connection, not with
the server. A step that C leaves undefined (a store outside the payload buffer,
an overflow of `int`, a scan off the command block, a read before it) ends in
`Control.fault`. Lengths of lines are plain numbers; those of payloads and
replies, which a request brings up to `INT_MAX`, are `int`s. The log records
what the handler did: the commands it dispatched with the bytes received for
them, the payloads it assembled, the bytes it wrote.
-/

namespace Memuncached.Server

/-! ## `memuncached_set` -/

/-- What the handler has done. -/
inductive Event where
  /-- `handle_command` was called on `received` bytes and made `call`. -/
  | command (received : List Byte) (call : Call)
  /-- `memuncached_set` has read `read` from the socket and its payload is `payload`. -/
  | payload (read payload : List Byte)
  /-- The bytes of one `write` or `dprintf`. -/
  | reply (bytes : List Byte)
  deriving DecidableEq, Repr

/-- `memuncached_set` in its payload loop. `payload` is `none` for the NULL of
    a failed `calloc`, `writes` what has been replied so far. -/
structure PayloadRead where
  key : List Byte
  type : List Byte
  vLength : ℤ
  payload : Option (List Byte)
  chunkSize : ℕ
  vLen : ℤ
  overwrite : Bool
  writes : List (List Byte)
  deriving DecidableEq, Repr

/-- A command has finished, waits for payload bytes, or has no defined behaviour. -/
inductive CommandState (R : Type) where
  | done (events : List Event) (table : HashTable R) (running : Bool)
  | recv (p : PayloadRead)
  | fault

/-- `calloc(size, 1)`. A negative `int` converts to a size no allocator grants. -/
def calloc (env : Env) (size : ℤ) : Option (List Byte) :=
  if 0 ≤ size ∧ env.granted size.toNat = true then some (List.replicate size.toNat 0) else none

/-- The `n` bytes of memory from offset `off` of the command block on. -/
def readMem (env : Env) (mem : List Byte) (off n : ℕ) : List Byte :=
  (List.range n).map fun j => mem.getD (off + j) (env.fresh (off + j))

/-- `memcpy(payload, payload_chunk, payload_chunk_size)` of a non-empty chunk
    (connection.c, lines 431-433); `none` when it leaves the buffer. -/
def copyChunk (payload : Option (List Byte)) (chunk : List Byte) :
    Option (Option (List Byte)) :=
  if chunk.length = 0 then some payload
  else
    match payload with
    | none => none
    | some buffer =>
      if chunk.length ≤ buffer.length then some (some (store buffer 0 chunk)) else none

section Set

variable {R : Type} [CacheValueReal R]

/-- The payload as it is when the payload loop ends. -/
def PayloadRead.events (p : PayloadRead) : List Event :=
  match p.payload with
  | none => []
  | some buffer => [.payload (buffer.drop p.chunkSize) (buffer.take p.vLength.toNat)]

/-- `memuncached_set` behind its payload loop (connection.c, lines 448-475). -/
def memuncachedSetEnd (table : HashTable R) (p : PayloadRead) : CommandState R :=
  let (writes, table) :=
    TableProg.exec (setTable p.key p.type p.vLength p.payload p.overwrite) table
  match writes with
  | none => .fault
  | some writes => .done (p.events ++ (p.writes ++ writes).map .reply) table true

/-- The test of `while (v_len > 0)` (connection.c, line 437). -/
def payloadLoop (table : HashTable R) (p : PayloadRead) : CommandState R :=
  if 0 < p.vLen then .recv p else memuncachedSetEnd table p

/-- The body of the payload loop (connection.c, lines 439-446). -/
def payloadRecv (table : HashTable R) (p : PayloadRead) : RecvResult → CommandState R
  | .data bytes =>
    payloadLoop table
      { p with
        payload := p.payload.map fun buffer => store buffer (p.vLength + 2 - p.vLen).toNat bytes
        vLen := p.vLen - bytes.length }
  | .eof => payloadLoop table p
  | .error =>
    .done ((p.writes ++ [replyServerError (ascii "Read failed.")]).map .reply) table true
  | .block => .recv p

/-- The `recv` of the payload loop (connection.c, line 439): `v_len` bytes
    behind what has been filled in, or into no buffer at all. -/
def PayloadRead.recv (p : PayloadRead) (s : Socket) : RecvResult × Socket :=
  if p.payload.isNone then s.recvNull p.vLen.toNat else s.recv p.vLen.toNat

/-- `memuncached_set` up to its payload loop (connection.c, lines 422-437);
    `chunk` is what `payload_chunk` points to, `payload_chunk_size` bytes. -/
def memuncachedSet (env : Env) (table : HashTable R) (key type length chunk : List Byte)
    (overwrite : Bool) : CommandState R :=
  -- the `long` of `atol` stored into an `int`
  let vLength := atoi length
  -- `v_length + 2` overflows `int`
  if vLength + 2 > intMax then .fault
  else
    let payload := calloc env (vLength + 2)
    let writes :=
      if payload.isNone then [replyServerError (ascii "Calloc failed.")] else []
    match copyChunk payload chunk with
    | none => .fault
    | some payload =>
      payloadLoop table
        { key := key, type := type, vLength := vLength, payload := payload,
          chunkSize := chunk.length, vLen := vLength + 2 - chunk.length,
          overwrite := overwrite, writes := writes }

/-- The replies of a command that acts on the table and the table it leaves. -/
def CommandState.ofTable (p : TableProg R (Option (List (List Byte)))) (table : HashTable R) :
    CommandState R :=
  let (writes, table) := TableProg.exec p table
  match writes with
  | none => .fault
  | some writes => .done (writes.map .reply) table true

/-- The body of `memuncached_stt` (connection.c, lines 331-334). -/
def sttText (clientCount : ℕ) (table : HashTable R) : List Byte :=
  ascii "Client-Count: " ++ fmtD (toInt clientCount) ++ 10 :: ascii "Key-Count: " ++
    fmtD (toInt table.count)

/-- The call of `handle_command`; `mem` is the command block as the argument
    scan left it. -/
def runCall (env : Env) (table : HashTable R) (clientCount : ℕ) (mem : List Byte)
    (payloadChunkSize : ℕ) : Call → CommandState R
  | .nothing => .done [] table true
  | .badRequest message => .done [.reply (replyBadRequest message)] table true
  | .bye => .done [.reply (replySuccess (ascii "bye."))] table false
  | .stt => .done [.reply (replySuccess (sttText clientCount table))] table true
  | .ver => .done [.reply (replySuccess (ascii "1.0"))] table true
  | .dec key offset initial => .ofTable (memuncachedDec key offset initial) table
  | .inc key offset initial => .ofTable (memuncachedInc key offset initial) table
  | .del key => .ofTable (memuncachedDel key) table
  | .get key => .ofTable (memuncachedGet key) table
  | .set key type length payloadChunk overwrite =>
    memuncachedSet env table key type length (readMem env mem payloadChunk payloadChunkSize)
      overwrite

/-- `handle_command` on the command block (connection.c, lines 149-323). -/
def handleCommand (env : Env) (table : HashTable R) (clientCount : ℕ) (command : List Byte)
    (payloadChunkSize : ℕ) : CommandState R :=
  match handleCommandCall command with
  | none => .fault
  | some (call, mem) => runCall env table clientCount mem payloadChunkSize call

/-- A command on its own: the next call of `recv` in its payload loop and what
    follows it. -/
def commandStep (table : HashTable R) (s : CommandState R × Socket) : CommandState R × Socket :=
  match s.1 with
  | .recv p =>
    let (result, socket) := p.recv s.2
    (payloadRecv table p result, socket)
  | .done _ _ _ | .fault => s

/-- A command after `n` calls of `recv`. -/
def runCommand (table : HashTable R) (n : ℕ) (s : CommandState R × Socket) :
    CommandState R × Socket :=
  (commandStep table)^[n] s

end Set

/-! ## The read loop -/

/-- The command block of `command_len` bytes and `command_free_len`. -/
structure ReadLoop where
  command : List Byte
  commandFreeLen : ℤ
  deriving DecidableEq, Repr

/-- `CONNECTION_RECV_LENGTH`. -/
def connectionRecvLength : ℕ := 10

/-- The read loop before its first `recv` (connection.c, lines 32-35). -/
def ReadLoop.init : ReadLoop where
  command := List.replicate connectionRecvLength 0
  commandFreeLen := connectionRecvLength

/-- `realloc(block, n)` to a larger size: the new bytes are as memory has them. -/
def realloc (env : Env) (block : List Byte) (n : ℕ) : Option (List Byte) :=
  if env.granted n = true then
    some (block ++ (List.range' block.length (n - block.length)).map env.fresh)
  else none

/-- How an iteration of the read loop ends. -/
inductive ReadStep where
  | more (r : ReadLoop)
  | line (r : ReadLoop) (payloadChunkSize : ℕ)
  | reallocFailed
  deriving DecidableEq, Repr

/-- `memcpy` of the received bytes into the command block (connection.c, line 80). -/
def ReadLoop.append (r : ReadLoop) (buffer : List Byte) : ReadLoop :=
  { r with
    command := store r.command (r.command.length - r.commandFreeLen - buffer.length).toNat buffer }

/-- An iteration of the read loop on `read_size` received bytes (connection.c,
    lines 47-83). -/
def readChunk (env : Env) (r : ReadLoop) (buffer : List Byte) : ReadStep :=
  let newline := sstrstr buffer [10] buffer.length
  let freeLen := r.commandFreeLen - buffer.length
  let grown : Option ReadLoop :=
    if freeLen ≤ 0 then
      (realloc env r.command (2 * r.command.length)).map fun command =>
        { command := command, commandFreeLen := freeLen + r.command.length }
    else some { command := r.command, commandFreeLen := freeLen }
  match grown with
  | none => .reallocFailed
  | some r =>
    match newline with
    | none => .more (r.append buffer)
    | some i => .line (r.append buffer) (buffer.length - (i + 1))

/-- The trim of trailing CR and LF (connection.c, lines 90-92) from index `i`
    down; `none` when it reads before the block. -/
def trimNewlines (command : List Byte) : ℕ → Option (List Byte)
  | 0 => none
  | i + 1 =>
    if isNewline (command.getD i 0) then trimNewlines (command.set i 0) i else some command

/-! ## The handler -/

/-- Where the handler thread is. -/
inductive Control where
  | recvLine (r : ReadLoop)
  | recvPayload (p : PayloadRead)
  | cleanup
  | fault
  deriving DecidableEq, Repr

/-- The handler of a connection, between two calls of `recv`. -/
structure Handler (R : Type) where
  control : Control
  table : HashTable R
  clientCount : ℕ
  isThreadRunning : Bool
  log : List Event

/-- `CLIENT_WELCOME_MESSAGE`, `CLIENT_WELCOME_MESSAGE_LEN` bytes: the length is
    the size of the array and counts the terminator. -/
def clientWelcomeMessage : List Byte := ascii "Memuncached v1.0 (gcc on linux)\n" ++ [0]

section Handler

variable {R : Type}

/-- The handler at its first `recv` (connection.c, lines 12-35). -/
def Handler.start (table : HashTable R) (clientCount : ℕ) : Handler R where
  control := .recvLine ReadLoop.init
  table := table
  clientCount := clientCount
  isThreadRunning := true
  log := [.reply clientWelcomeMessage]

/-- The test of the outer loop and the set-up of its body (connection.c, lines
    31-35), reached by `continue` from everywhere in the body. -/
def Handler.loopTop (h : Handler R) : Handler R :=
  { h with control := if h.isThreadRunning then .recvLine ReadLoop.init else .cleanup }

/-- Go on from the state a command is in. -/
def Handler.resume (h : Handler R) : CommandState R → Handler R
  | .done events table running =>
    Handler.loopTop
      { h with
        table := table
        isThreadRunning := h.isThreadRunning && running
        log := h.log ++ events }
  | .recv p => { h with control := .recvPayload p }
  | .fault => { h with control := .fault }

variable [CacheValueReal R]

/-- The outer loop behind the read loop, with a line received (connection.c,
    lines 88-109). -/
def Handler.dispatch (env : Env) (h : Handler R) (r : ReadLoop) (payloadChunkSize : ℕ) :
    Handler R :=
  let commandLen := (r.command.length - r.commandFreeLen).toNat
  match trimNewlines r.command commandLen with
  | none => { h with control := .fault }
  | some command =>
    match handleCommandCall command with
    | none => { h with control := .fault }
    | some (call, mem) =>
      Handler.resume
        { h with log := h.log ++ [.command (r.command.take commandLen) call] }
        (runCall env h.table h.clientCount mem payloadChunkSize call)

/-- From the return of one `recv` to the call of the next. In the read loop the
    tests for 0 and -1 stand inside a loop that runs on positive results only:
    either result ends that loop and leads back to the outer one. -/
def Handler.step (env : Env) (h : Handler R) (result : RecvResult) : Handler R :=
  match h.control with
  | .recvLine r =>
    match result with
    | .data buffer =>
      match readChunk env r buffer with
      | .more r => { h with control := .recvLine r }
      | .line r payloadChunkSize => h.dispatch env r payloadChunkSize
      | .reallocFailed =>
        Handler.loopTop
          { h with log := h.log ++ [.reply (replyServerError (ascii "Realloc failed."))] }
    | .eof | .error => h.loopTop
    | .block => h
  | .recvPayload p => h.resume (payloadRecv h.table p result)
  | .cleanup | .fault => h

/-- The next call of `recv` and what follows it. -/
def serveStep (env : Env) (s : Handler R × Socket) : Handler R × Socket :=
  match s.1.control with
  | .recvLine _ =>
    let (result, socket) := s.2.recv connectionRecvLength
    (s.1.step env result, socket)
  | .recvPayload p =>
    let (result, socket) := p.recv s.2
    (s.1.step env result, socket)
  | .cleanup | .fault => s

/-- The handler after `n` calls of `recv`. -/
def serve (env : Env) (n : ℕ) (s : Handler R × Socket) : Handler R × Socket :=
  (serveStep env)^[n] s

end Handler

end Memuncached.Server
